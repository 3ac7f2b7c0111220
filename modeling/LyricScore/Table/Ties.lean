/-
Folding ties. Inside a beat, three tied notes that add up to a dotted value become one dotted
note, unless it would sound across a beat line. Across beats, a whole-beat note and the
whole-beat holds behind it in the same measure become one longer note. The result is the final
text of every row; rows whose notes went into an earlier one end with an empty text.
-/
import LyricScore.Rhythm.Meter
import LyricScore.Table.Notes

namespace LyricScore

open Text

-- ====================================================== placed beats

/-- A beat and its start within the measure, in units. -/
structure PlacedBeat extends BeatGroup where
  start : Rat
  deriving DecidableEq

namespace BeatGroup

/-- Where the first beat of a measure starts. A pickup starts on its counter. -/
def measureStart (g : BeatGroup) : Rat :=
  if g.first.1.measure = some 0 then
    match g.first.1.pickup with
    | some counter => if counter = 0 then 0 else counter - 1
    | none => 0
  else 0

/-- Where a beat starts, behind the given earlier beats of the table. -/
def startAfter (earlier : List BeatGroup) (g : BeatGroup) : Rat :=
  let inMeasure := earlier.filter fun e => decide (e.key.inMeasure = g.key.inMeasure)
  (inMeasure.head?.getD g).measureStart + sumTimes (inMeasure.map (·.span))

/-- Beats with their starts; `earlier` holds the beats before them. -/
def place (earlier : List BeatGroup) : List BeatGroup → List PlacedBeat
  | [] => []
  | g :: rest => { g with start := g.startAfter earlier } :: place (earlier ++ [g]) rest

end BeatGroup

/-- The beats of a table with their starts. -/
def Table.placedBeats (t : Table) : List PlacedBeat :=
  BeatGroup.place [] t.beats

-- ============================================================= dots

/-- Two rows of the same pitch. -/
def Row.samePitch (a b : Row) : Bool :=
  a.hasPitch && a.letter == b.letter && a.octave == b.octave

/-- Whether a row holds on the note of the row before it. -/
def Row.tiesTo (a b : Row) : Bool :=
  (a.isAttack || a.isHold) && a.samePitch b && b.isHold

/-- The lengths, in units, that have a dotted spelling. -/
def dottedLengths : List Rat := [3 / 4, 3 / 2, 3]

/-- A time in units as a time in the meter's note value. -/
def toMeter (value : Int) (unit time : Rat) : Rat :=
  time * unit * value

namespace PlacedBeat

/-- The meter of a beat is that of its first row. -/
def meter (b : PlacedBeat) : String := b.first.1.effectiveMeter

/-- The tied runs of a beat, in order. -/
def runs (b : PlacedBeat) : List (List Row) :=
  (b.members.map (·.1)).splitBy Row.tiesTo

/-- Whether a run of `size` rows from the given position has the size and length of a dotted
note. -/
def mayDot (b : PlacedBeat) (size : Nat) : Bool :=
  size == 3 && !b.bracketed && dottedLengths.contains (b.length * size)

/-- Whether a run of `size` rows from the given position stays within its beat. -/
def staysInBeat (b : PlacedBeat) (position size : Nat) : Except Error Bool := do
  let value ← meterValue b.meter
  let start := toMeter value b.unit (b.start + b.length * position)
  let total := toMeter value b.unit (b.length * size)
  return !crossesBeatLine start total b.meter

/-- Whether a run is written as one dotted note. -/
def dots (b : PlacedBeat) (position size : Nat) : Except Error Bool :=
  if b.mayDot size then b.staysInBeat position size else .ok false

/-- The text of runs from a position on, and how many of them are dotted. -/
def dotRuns (b : PlacedBeat) (position : Nat) : List (List Row) → Except Error (String × Nat)
  | [] => .ok ("", 0)
  | run :: rest =>
    match b.dots position run.length with
    | .error e => .error e
    | .ok dotted =>
      match b.dotRuns (position + run.length) rest with
      | .error e => .error e
      | .ok (text, count) =>
        match run, dotted with
        | head :: _, true => .ok (head.encode (b.length * run.length) "" ++ text, count + 1)
        | _, _ => .ok (String.join (run.map fun r => r.noteText.getD "") ++ text, count)

/-- The text of a beat with its dots, and how many there are. -/
def dotted (b : PlacedBeat) : Except Error (String × Nat) :=
  b.dotRuns 0 b.runs

end PlacedBeat

-- ============================================================ merges

/-- A note and the holds behind it that become one note. -/
structure Merge where
  head : PlacedBeat
  followers : List PlacedBeat
  total : Rat

namespace Merge

/-- The lengths, in units, that a merged note may have. -/
def lengths : List Rat := [2, 3, 4]

/-- Whether a note of the given length may start at a beat. In 4/4 a note that starts behind the
first beat does not sound across the middle. -/
def allowed (head : PlacedBeat) (total : Rat) : Bool :=
  lengths.contains total
    && if head.meter = defaultMeter ∧ 0 < head.start then
        let start := toMeter 4 head.unit head.start
        let stop := start + toMeter 4 head.unit total
        !(decide (start < 2) && decide (2 < stop))
      else true

/-- Whether a beat is one whole note that may be merged. -/
def isHead (b : PlacedBeat) : Bool :=
  b.others.isEmpty && !b.compound && b.first.1.isAttack && b.first.1.hasPitch

/-- Whether a beat is a whole hold of the note of `head`, in the same measure. -/
def follows (head b : PlacedBeat) : Bool :=
  b.others.isEmpty && decide (b.key.inMeasure = head.key.inMeasure) && !b.compound
    && b.first.1.isHold && head.first.1.samePitch b.first.1

/-- The merge of a head with the first `size` of the holds behind it. -/
def ofSize (head : PlacedBeat) (holds : List PlacedBeat) (size : Nat) : Merge :=
  ⟨head, holds.take size, head.length + sumTimes ((holds.take size).map (·.length))⟩

/-- The longest allowed merge of a head with at most `size` of the holds behind it. -/
def longest? (head : PlacedBeat) (holds : List PlacedBeat) : Nat → Option Merge
  | 0 => none
  | size + 1 =>
    let m := ofSize head holds (size + 1)
    if allowed head m.total then some m else longest? head holds size

/-- The merge that starts at a beat. -/
def at? (b : PlacedBeat) (rest : List PlacedBeat) : Option Merge :=
  if isHead b then
    let holds := rest.takeWhile (follows b)
    longest? b holds holds.length
  else none

/-- The merges of beats, from the front on. The first `skip` beats are part of an earlier one. -/
def scan (skip : Nat) : List PlacedBeat → List Merge
  | [] => []
  | b :: rest =>
    match skip with
    | skip + 1 => scan skip rest
    | 0 =>
      match at? b rest with
      | some m => m :: scan m.followers.length rest
      | none => scan 0 rest

/-- The final texts that a merge sets, by place. -/
def texts (m : Merge) : List (Nat × String) :=
  (m.head.first.2, m.head.first.1.encode m.total "") :: m.followers.map fun b => (b.first.2, "")

end Merge

-- ============================================================ tables

/-- What folding ties does to a table: final texts by place, later ones over earlier ones, and
the number of dotted and of merged notes. -/
structure Folding where
  texts : List (Nat × String)
  dotted : Nat
  merged : Nat

namespace Table

/-- The merges of a table. -/
def merges (t : Table) : List Merge :=
  Merge.scan 0 t.placedBeats

/-- The beats of a table with their dots. -/
def dottedBeats (t : Table) : Except Error (List (PlacedBeat × String × Nat)) :=
  t.placedBeats.mapM fun b => b.dotted.map fun d => (b, d)

/-- What folding ties does to a table. -/
def folding (t : Table) : Except Error Folding := do
  let beats ← t.dottedBeats
  let dotted := beats.filter fun b => b.2.2 != 0
  return {
    texts := dotted.map (fun b => (b.1.first.2, b.2.1)) ++ t.merges.flatMap Merge.texts
    dotted := dotted.foldl (fun n b => n + b.2.2) 0
    merged := t.merges.length }

/-- The text set for a place. -/
def textAt? (texts : List (Nat × String)) (index : Nat) : Option String :=
  ((texts.filter fun e => e.1 == index).getLast?).map (·.2)

/-- A table with its final texts: those that are set, and the drafts for all other rows. -/
def withTexts (t : Table) (texts : List (Nat × String)) : Table :=
  t.zipIdx.map fun p =>
    { p.1 with finalText := some ((textAt? texts p.2).getD (p.1.draftText.getD "")) }

/-- A table with its ties folded. Without folding the drafts are final. -/
def withTies (t : Table) (fold : Bool) : Except Error (Table × Folding) :=
  if fold then t.folding.map fun f => (t.withTexts f.texts, f)
  else .ok (t.withTexts [], ⟨[], 0, 0⟩)

end Table

end LyricScore
