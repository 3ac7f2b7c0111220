/-
Rows that stand for the same notes. Ties are folded by where a row stands, how long its beat lasts,
what it sings and how its note is written; nothing else of a row is looked at. So a table may be cast
anew, row by row, and as long as every row stands for the same note as before, the beats start where
they did, the same runs are dotted, the same beats are merged, and the texts to be set are the same.
-/
import LyricScore.Proofs.Sequence
import LyricScore.Proofs.Table.Beats
import Mathlib.Data.List.SplitBy

namespace LyricScore

-- ============================================================== rows

/-- Rows that stand for the same note: the folding of ties cannot tell them apart. -/
structure Row.SameNotes (r r' : Row) : Prop where
  beatKey? : r'.beatKey? = r.beatKey?
  measure : r'.measure = r.measure
  pickup : r'.pickup = r.pickup
  unit : r'.effectiveUnit = r.effectiveUnit
  duration : r'.effectiveDuration = r.effectiveDuration
  meter : r'.effectiveMeter = r.effectiveMeter
  isAttack : r'.isAttack = r.isAttack
  isHold : r'.isHold = r.isHold
  letter : r'.letter = r.letter
  octave : r'.octave = r.octave
  encode : ∀ length opening, r'.encode length opening = r.encode length opening
  noteText : r'.noteText = r.noteText

namespace Row.SameNotes

variable {r r' q q' : Row}

theorem hasPitch (h : r.SameNotes r') : r'.hasPitch = r.hasPitch := by
  unfold Row.hasPitch
  rw [h.letter, h.octave]

theorem samePitch (h : r.SameNotes r') (hq : q.SameNotes q') : r'.samePitch q' = r.samePitch q := by
  unfold Row.samePitch
  rw [h.hasPitch, h.letter, h.octave, hq.letter, hq.octave]

theorem tiesTo (h : r.SameNotes r') (hq : q.SameNotes q') : r'.tiesTo q' = r.tiesTo q := by
  unfold Row.tiesTo
  rw [h.isAttack, h.isHold, h.samePitch hq, hq.isHold]

end Row.SameNotes

/-- Runs follow the elements through a map that keeps what joins them. -/
theorem splitBy_map {α β : Type} {R : α → α → Bool} {S : β → β → Bool} {f : α → β}
    (hf : ∀ a b, S (f a) (f b) = R a b) (l : List α) :
    (l.map f).splitBy S = (l.splitBy R).map (List.map f) := by
  have hloop : ∀ (l : List α) (a : α) (g : List α) (gs : List (List α)),
      List.splitBy.loop S (l.map f) (f a) (g.map f) (gs.map (List.map f))
        = (List.splitBy.loop R l a g gs).map (List.map f) := by
    intro l
    induction l with
    | nil =>
        intro a g gs
        simp [List.splitBy.loop]
    | cons b l ih =>
        intro a g gs
        simp only [List.map_cons, List.splitBy.loop, hf]
        split
        · exact ih b (a :: g) gs
        · have hnext := ih b [] ((a :: g).reverse :: gs)
          simpa using hnext
  cases l with
  | nil => rfl
  | cons a l => exact hloop l a [] []

-- ============================================================= beats

/-- A beat whose rows were cast anew. -/
def BeatGroup.recast (cast : Row → Row) (g : BeatGroup) : BeatGroup :=
  g.mapRows fun p => cast p.1

/-- A placed beat whose rows were cast anew. -/
def PlacedBeat.recast (cast : Row → Row) (b : PlacedBeat) : PlacedBeat :=
  { b.toBeatGroup.recast cast with start := b.start }

/-- A merge whose rows were cast anew. -/
def Merge.recast (cast : Row → Row) (m : Merge) : Merge :=
  { m with head := m.head.recast cast, followers := m.followers.map (PlacedBeat.recast cast) }

section Recast

variable {cast : Row → Row} (hcast : ∀ r : Row, r.SameNotes (cast r))
include hcast

namespace BeatGroup

theorem unit_recast (g : BeatGroup) : (g.recast cast).unit = g.unit :=
  (hcast g.first.1).unit

theorem compound_recast (g : BeatGroup) : (g.recast cast).compound = g.compound :=
  compound_mapRows (hcast g.first.1).unit

theorem bracketed_recast (g : BeatGroup) : (g.recast cast).bracketed = g.bracketed :=
  bracketed_mapRows (hcast g.first.1).unit

theorem opening_recast (g : BeatGroup) : (g.recast cast).opening = g.opening :=
  opening_mapRows (hcast g.first.1).unit

theorem length_recast (g : BeatGroup) : (g.recast cast).length = g.length :=
  length_mapRows (hcast g.first.1).unit (hcast g.first.1).duration

theorem span_recast (g : BeatGroup) : (g.recast cast).span = g.span :=
  span_mapRows (hcast g.first.1).unit (hcast g.first.1).duration

theorem measureStart_recast (g : BeatGroup) : (g.recast cast).measureStart = g.measureStart := by
  have hmeasure : (g.recast cast).first.1.measure = g.first.1.measure := (hcast g.first.1).measure
  have hpickup : (g.recast cast).first.1.pickup = g.first.1.pickup := (hcast g.first.1).pickup
  unfold measureStart
  rw [hmeasure, hpickup]

theorem startAfter_recast (earlier : List BeatGroup) (g : BeatGroup) :
    (g.recast cast).startAfter (earlier.map (recast cast)) = g.startAfter earlier := by
  have hearlier : (earlier.map (recast cast)).filter
        (fun e => decide (e.key.inMeasure = (g.recast cast).key.inMeasure))
      = (earlier.filter fun e => decide (e.key.inMeasure = g.key.inMeasure)).map (recast cast) := by
    rw [List.filter_map]
    rfl
  unfold startAfter
  rw [hearlier]
  dsimp only
  rw [List.map_map, List.head?_map, Option.getD_map, measureStart_recast hcast]
  simp only [Function.comp_def, span_recast hcast]

/-- Beats that stand for the same notes start at the same times. -/
theorem place_recast (earlier groups : List BeatGroup) :
    place (earlier.map (recast cast)) (groups.map (recast cast))
      = (place earlier groups).map (PlacedBeat.recast cast) := by
  induction groups generalizing earlier with
  | nil => rfl
  | cons g groups ih =>
      have hrest := ih (earlier ++ [g])
      rw [List.map_append, List.map_singleton] at hrest
      simp only [List.map_cons, place, startAfter_recast hcast, hrest]
      rfl

end BeatGroup

theorem Table.beats_map (t : Table) : Table.beats (t.map cast) = t.beats.map (BeatGroup.recast cast) := by
  have hrows : t.map cast = t.zipIdx.map fun p => cast p.1 := by
    rw [← List.zipIdx_map_fst 0 t, List.map_map, List.zipIdx_map_fst]
    rfl
  rw [hrows]
  exact beats_zipIdx_map fun p _ => (hcast p.1).beatKey?

theorem Table.placedBeats_map (t : Table) :
    Table.placedBeats (t.map cast) = t.placedBeats.map (PlacedBeat.recast cast) := by
  unfold Table.placedBeats
  rw [Table.beats_map hcast]
  exact BeatGroup.place_recast hcast [] t.beats

-- ============================================================== dots

namespace PlacedBeat

theorem runs_recast (b : PlacedBeat) : (b.recast cast).runs = b.runs.map (List.map cast) := by
  have hrows : (b.recast cast).members.map (·.1) = (b.members.map (·.1)).map cast := by
    rw [List.map_map, show (b.recast cast).members = b.members.map fun p => (cast p.1, p.2) from rfl,
      List.map_map]
    rfl
  unfold runs
  rw [hrows]
  exact splitBy_map (fun r q => (hcast r).tiesTo (hcast q)) _

theorem dots_recast (b : PlacedBeat) (position size : Nat) :
    (b.recast cast).dots position size = b.dots position size := by
  have hlength : (b.recast cast).length = b.length := b.toBeatGroup.length_recast hcast
  have hbracket : (b.recast cast).bracketed = b.bracketed := b.toBeatGroup.bracketed_recast hcast
  have hunit : (b.recast cast).unit = b.unit := b.toBeatGroup.unit_recast hcast
  have hmeter : (b.recast cast).meter = b.meter := (hcast b.first.1).meter
  unfold dots mayDot staysInBeat
  rw [hlength, hbracket, hunit, hmeter]
  rfl

theorem dotRuns_recast (b : PlacedBeat) (position : Nat) (runs : List (List Row)) :
    (b.recast cast).dotRuns position (runs.map (List.map cast)) = b.dotRuns position runs := by
  have hlength : (b.recast cast).length = b.length := b.toBeatGroup.length_recast hcast
  induction runs generalizing position with
  | nil => rfl
  | cons run runs ih =>
      simp only [List.map_cons, dotRuns, dots_recast hcast, List.length_map, ih, hlength]
      cases b.dots position run.length with
      | error e => rfl
      | ok dotted =>
          dsimp only
          cases b.dotRuns (position + run.length) runs with
          | error e => rfl
          | ok rest =>
              cases run with
              | nil => cases dotted <;> rfl
              | cons head run =>
                  cases dotted with
                  | true => simp [(hcast head).encode]
                  | false => simp [Function.comp_def, (hcast _).noteText]

theorem dotted_recast (b : PlacedBeat) : (b.recast cast).dotted = b.dotted := by
  unfold dotted
  rw [runs_recast hcast, dotRuns_recast hcast]

end PlacedBeat

-- ============================================================ merges

namespace Merge

theorem isHead_recast (b : PlacedBeat) : isHead (b.recast cast) = isHead b := by
  have hothers : (b.recast cast).others.isEmpty = b.others.isEmpty := List.isEmpty_map
  have hcompound : (b.recast cast).compound = b.compound := b.toBeatGroup.compound_recast hcast
  have hattack : (b.recast cast).first.1.isAttack = b.first.1.isAttack := (hcast b.first.1).isAttack
  have hpitch : (b.recast cast).first.1.hasPitch = b.first.1.hasPitch := (hcast b.first.1).hasPitch
  unfold isHead
  rw [hothers, hcompound, hattack, hpitch]

theorem follows_recast (head b : PlacedBeat) :
    follows (head.recast cast) (b.recast cast) = follows head b := by
  have hothers : (b.recast cast).others.isEmpty = b.others.isEmpty := List.isEmpty_map
  have hcompound : (b.recast cast).compound = b.compound := b.toBeatGroup.compound_recast hcast
  have hhold : (b.recast cast).first.1.isHold = b.first.1.isHold := (hcast b.first.1).isHold
  have hpitch : (head.recast cast).first.1.samePitch (b.recast cast).first.1
      = head.first.1.samePitch b.first.1 := (hcast head.first.1).samePitch (hcast b.first.1)
  unfold follows
  rw [hothers, hcompound, hhold, hpitch]
  rfl

theorem ofSize_recast (head : PlacedBeat) (holds : List PlacedBeat) (size : Nat) :
    ofSize (head.recast cast) (holds.map (PlacedBeat.recast cast)) size
      = (ofSize head holds size).recast cast := by
  have hlength : ∀ b : PlacedBeat, (b.recast cast).length = b.length := fun b =>
    b.toBeatGroup.length_recast hcast
  simp only [ofSize, recast, ← List.map_take, List.map_map, Function.comp_def, hlength]

theorem allowed_recast (head : PlacedBeat) (total : Rat) :
    allowed (head.recast cast) total = allowed head total := by
  have hunit : (head.recast cast).unit = head.unit := head.toBeatGroup.unit_recast hcast
  have hmeter : (head.recast cast).meter = head.meter := (hcast head.first.1).meter
  unfold allowed
  rw [hunit, hmeter]
  rfl

theorem longest?_recast (head : PlacedBeat) (holds : List PlacedBeat) (size : Nat) :
    longest? (head.recast cast) (holds.map (PlacedBeat.recast cast)) size
      = (longest? head holds size).map (recast cast) := by
  induction size with
  | zero => rfl
  | succ size ih =>
      simp only [longest?, ofSize_recast hcast, ih, allowed_recast hcast]
      rw [show ((ofSize head holds (size + 1)).recast cast).total = (ofSize head holds (size + 1)).total
        from rfl]
      split <;> rfl

theorem at?_recast (b : PlacedBeat) (rest : List PlacedBeat) :
    at? (b.recast cast) (rest.map (PlacedBeat.recast cast)) = (at? b rest).map (recast cast) := by
  unfold at?
  dsimp only
  rw [isHead_recast hcast, List.takeWhile_map, List.length_map]
  simp only [Function.comp_def, follows_recast hcast, longest?_recast hcast]
  split <;> rfl

theorem scan_recast (skip : Nat) (beats : List PlacedBeat) :
    scan skip (beats.map (PlacedBeat.recast cast)) = (scan skip beats).map (recast cast) := by
  induction beats generalizing skip with
  | nil => rfl
  | cons b beats ih =>
      cases skip with
      | succ skip => exact ih skip
      | zero =>
          simp only [List.map_cons, scan, at?_recast hcast]
          cases at? b beats with
          | none => exact ih 0
          | some m =>
              have hskip : (m.recast cast).followers.length = m.followers.length := List.length_map _
              simp only [Option.map_some, hskip, ih, List.map_cons]

theorem texts_recast (m : Merge) : (m.recast cast).texts = m.texts := by
  have hhead : (m.recast cast).head.first.1.encode (m.recast cast).total ""
      = m.head.first.1.encode m.total "" := (hcast m.head.first.1).encode _ _
  unfold texts
  rw [hhead, show (m.recast cast).followers = m.followers.map (PlacedBeat.recast cast) from rfl,
    List.map_map]
  rfl

end Merge

-- ============================================================ tables

namespace Table

theorem merges_map (t : Table) : Table.merges (t.map cast) = t.merges.map (Merge.recast cast) := by
  unfold Table.merges
  rw [Table.placedBeats_map hcast]
  exact Merge.scan_recast hcast 0 t.placedBeats

theorem dottedBeats_map (t : Table) :
    Table.dottedBeats (t.map cast) = t.dottedBeats.map (List.map fun b => (b.1.recast cast, b.2)) := by
  unfold Table.dottedBeats
  rw [Table.placedBeats_map hcast]
  refine mapM_map (fun b => ?_) t.placedBeats
  rw [PlacedBeat.dotted_recast hcast]
  cases b.dotted <;> rfl

/-- Ties fold in the same way if all rows stand for the same notes. -/
theorem folding_map (t : Table) : Table.folding (t.map cast) = t.folding := by
  have htexts : (t.merges.map (Merge.recast cast)).flatMap Merge.texts
      = t.merges.flatMap Merge.texts := by
    simp only [List.flatMap_map, Merge.texts_recast hcast]
  unfold Table.folding
  rw [Table.dottedBeats_map hcast, Table.merges_map hcast, htexts, List.length_map]
  cases t.dottedBeats with
  | error e => rfl
  | ok beats =>
      have hdotted : (beats.map fun b => (b.1.recast cast, b.2)).filter (fun b => b.2.2 != 0)
          = (beats.filter fun b => b.2.2 != 0).map fun b => (b.1.recast cast, b.2) := List.filter_map
      simp only [Except.map, bind, Except.bind, hdotted, List.map_map, List.foldl_map]
      rfl

end Table

end Recast

end LyricScore
