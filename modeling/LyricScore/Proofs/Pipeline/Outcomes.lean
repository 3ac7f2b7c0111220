/-
What a stage leads to. `Stage.Yields` says for each stage which numbers must fit and which part of
it must succeed, and what context and table it then hands on. A stage does this and nothing else
(`Stage.run_eq_ok_iff`), so what holds behind every stage is shown from these ten cases, and no
proof opens the stages themselves.
-/
import LyricScore.Pipeline.Stage
import LyricScore.Proofs.Sequence

namespace LyricScore

open Text

-- ============================================================== ties

/-- Setting the ties gives the rows their final texts: the ones of the folding, or none. -/
theorem Table.withTies_eq_ok {t out : Table} {fold : Bool} {f : Folding}
    (h : t.withTies fold = .ok (out, f)) :
    out = t.withTexts f.texts ∧ (t.folding = .ok f ∨ f.texts = []) := by
  unfold Table.withTies at h
  split at h
  · obtain ⟨found, hfound, hout⟩ := map_eq_ok.1 h
    obtain ⟨rfl, rfl⟩ := Prod.mk.inj hout
    exact ⟨rfl, Or.inl hfound⟩
  · obtain ⟨rfl, rfl⟩ := Prod.mk.inj (Except.ok.inj h)
    exact ⟨rfl, Or.inr rfl⟩

-- ============================================================ stages

namespace Stage

/-- From a context and a table, a stage leads to a context and a table. -/
inductive Yields (c : Context) (t : Table) : Stage → Context → Table → Prop where
  | layout {score : Score} (hscore : c.piece.score = .ok score) :
      Yields c t .layout (c.record layout.name (layoutFigures score.layout)) score.layout
  | voicing {voiced : Table} (hvoiced : t.voiced = .ok voiced) :
      Yields c t .voicing (c.record voicing.name (voicingFigures voiced)) voiced
  | underlay :
      Yields c t .underlay
        ((c.warn t.underlayWarnings).record underlay.name (underlayFigures t.underlaid))
        (t.underlaid.map (·.1))
  | heading {title : String} (htitle : c.title = .ok title) :
      Yields c t .heading
        (c.record heading.name
          [("header_rows", .count (headingFields title).length), ("title", .text title)])
        (t.withHeading title)
  | units {ds : List Declaration} (hds : t.declarations = .ok ds)
      (hfits : (unitsUsed (t.withUnitsOf ds)).all ratFits = true) :
      Yields c t .units
        ((c.warn (ds.flatMap Units.warnings)).record units.name (unitFigures (t.withUnitsOf ds)))
        (t.withUnitsOf ds)
  | meters (hfits : Measure.canWrite none t.measures = true) :
      Yields c t .meters (c.record meters.name (meterFigures t.measures)) t.withMetersText
  | keys :
      Yields c t .keys
        ((c.warn (t.keyMarks.flatMap Keys.warnings)).record keys.name (keyFigures t.keyMarks))
        t.withKeys
  | notes (hfits : (t.beats.all fun g => lengthFits g.length) = true) :
      Yields c t .notes (c.record notes.name (noteFigures t.noteCounts)) t.withNotesText
  | ties {out : Table} {f : Folding} (hties : t.withTies c.options.fold = .ok (out, f)) :
      Yields c t .ties (c.record ties.name (tieFigures c.options.fold f)) out
  | assembly :
      Yields c t .assembly
        (({ c with tune := t.tune } : Context).record assembly.name
          [("lines", .count (lineCount t.tune))])
        t

/-- A stage succeeds just with what it leads to. -/
theorem run_eq_ok_iff {s : Stage} {c c' : Context} {t t' : Table} :
    s.run c t = .ok (c', t') ↔ Yields c t s c' t' := by
  constructor
  · intro h
    cases s with
    | layout =>
        obtain ⟨score, hscore, h⟩ := bind_eq_ok.1 h
        cases h
        exact .layout hscore
    | voicing =>
        obtain ⟨voiced, hvoiced, h⟩ := bind_eq_ok.1 h
        cases h
        exact .voicing hvoiced
    | underlay =>
        cases h
        exact .underlay
    | heading =>
        obtain ⟨title, htitle, h⟩ := bind_eq_ok.1 h
        cases h
        exact .heading htitle
    | units =>
        obtain ⟨ds, hds, h⟩ := bind_eq_ok.1 h
        dsimp only at h
        split at h
        · next hfits =>
          cases h
          exact .units hds hfits
        · cases h
    | meters =>
        obtain ⟨out, hout, h⟩ := bind_eq_ok.1 h
        cases h
        unfold Table.withMeters at hout
        split at hout
        · next hfits =>
          cases hout
          exact .meters hfits
        · cases hout
    | keys =>
        cases h
        exact .keys
    | notes =>
        obtain ⟨out, hout, h⟩ := bind_eq_ok.1 h
        cases h
        unfold Table.withNotes at hout
        split at hout
        · next hfits =>
          cases hout
          exact .notes hfits
        · cases hout
    | ties =>
        obtain ⟨⟨out, f⟩, hties, h⟩ := bind_eq_ok.1 h
        cases h
        exact .ties hties
    | assembly =>
        cases h
        exact .assembly
  · intro h
    cases h with
    | layout hscore => exact bind_eq_ok.2 ⟨_, hscore, rfl⟩
    | voicing hvoiced => exact bind_eq_ok.2 ⟨_, hvoiced, rfl⟩
    | underlay => rfl
    | heading htitle => exact bind_eq_ok.2 ⟨_, htitle, rfl⟩
    | units hds hfits => exact bind_eq_ok.2 ⟨_, hds, if_pos hfits⟩
    | meters hfits => exact bind_eq_ok.2 ⟨_, if_pos hfits, rfl⟩
    | keys => rfl
    | notes hfits => exact bind_eq_ok.2 ⟨_, if_pos hfits, rfl⟩
    | ties hties => exact bind_eq_ok.2 ⟨_, hties, rfl⟩
    | assembly => rfl

end Stage

end LyricScore
