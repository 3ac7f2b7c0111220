/-
Tables without their words. An attack may be sung on a syllable or on none, and all that a table
says about the music is the same. To see this, every attack is put on the marker `*`; each step
from table to table, and whatever is read off a table in the end, takes the table without words to
the result without words.

Words show in two columns only, and the rows that have them are told by being attacks. So a row
without words attacks, holds and takes time like the row itself, and what is written into its other
columns is written beside its words.
-/
import LyricScore.Performance.Event
import LyricScore.Pipeline.Stage
import LyricScore.Proofs.Table.Keys
import LyricScore.Proofs.Table.SameNotes
import LyricScore.Proofs.Table.Underlay

namespace LyricScore

open Text

-- ============================================================== rows

/-- A row whose attack is sung on no syllable. -/
def Row.wordless (r : Row) : Row :=
  { r with
    kind := if r.isAttack then .attack else r.kind
    raw := if r.isAttack then Marker.attack.text else r.raw }

/-- A table whose attacks are sung on no syllable. -/
def Table.wordless (t : Table) : Table :=
  t.map Row.wordless

/-- A placed row whose attack is sung on no syllable. -/
def PlacedRow.wordless (p : PlacedRow) : PlacedRow :=
  (p.1.wordless, p.2)

namespace Row

@[simp] theorem source_wordless (r : Row) : r.wordless.source = r.source := rfl
@[simp] theorem block_wordless (r : Row) : r.wordless.block = r.block := rfl
@[simp] theorem shift_wordless (r : Row) : r.wordless.shift = r.shift := rfl

@[simp] theorem isAttack_wordless (r : Row) : r.wordless.isAttack = r.isAttack := by
  unfold wordless isAttack
  cases r.source <;> cases r.kind <;> rfl

@[simp] theorem isHold_wordless (r : Row) : r.wordless.isHold = r.isHold := by
  unfold wordless isHold isAttack
  cases r.source <;> cases r.kind <;> rfl

@[simp] theorem isRhythm_wordless (r : Row) : r.wordless.isRhythm = r.isRhythm := by
  unfold wordless isRhythm isAttack
  cases r.source <;> cases r.kind <;> rfl

@[simp] theorem kind_isHold_wordless (r : Row) : r.wordless.kind.isHold = r.kind.isHold := by
  unfold wordless isAttack
  cases r.source <;> cases r.kind <;> rfl

/-- A row is of another kind than an attack with and without words. -/
theorem kind_wordless_eq {r : Row} {k : Kind} (hk : k.isAttack = false) :
    r.wordless.kind = k ↔ r.kind = k := by
  have hne : r.isAttack = true → r.kind ≠ k := by
    rintro h rfl
    simp [isAttack, hk] at h
  unfold wordless
  dsimp only
  split
  · next h =>
    refine iff_of_false ?_ (hne h)
    rintro rfl
    cases hk
  · exact Iff.rfl

theorem wordless_eq_self {r : Row} (h : r.isAttack = false) : r.wordless = r := by
  simp [wordless, h]

theorem raw_wordless {r : Row} (h : r.isAttack = false) : r.wordless.raw = r.raw := by
  rw [wordless_eq_self h]

theorem isAttack_of_source {r : Row} (h : r.source ≠ .lyric) : r.isAttack = false := by
  simp [isAttack, h]

theorem isAttack_of_kind {r : Row} (h : r.kind.isAttack = false) : r.isAttack = false := by
  simp [isAttack, h]

@[simp] theorem beatKey?_wordless (r : Row) : r.wordless.beatKey? = r.beatKey? := by
  unfold beatKey?
  rw [isRhythm_wordless]
  rfl

@[simp] theorem measureKey?_wordless (r : Row) : r.wordless.measureKey? = r.measureKey? := by
  unfold measureKey?
  rw [isRhythm_wordless]
  rfl

end Row

@[simp] theorem Table.zipIdx_wordless (t : Table) (n : Nat) :
    List.zipIdx t.wordless n = (t.zipIdx n).map PlacedRow.wordless := by
  unfold Table.wordless
  rw [List.zipIdx_map]
  rfl

/-- A step that writes row by row, beside the words. -/
theorem Table.wordless_zipIdx_map (t : Table) {f g : PlacedRow → Row}
    (h : ∀ p, (f p).wordless = g p.wordless) :
    Table.wordless (t.zipIdx.map f) = t.wordless.zipIdx.map g := by
  rw [Table.zipIdx_wordless, List.map_map]
  unfold Table.wordless
  rw [List.map_map]
  exact List.map_congr_left fun p _ => h p

-- =========================================================== voicing

theorem Table.firstRhythm?_wordless (t : Table) (block : Int) :
    t.wordless.firstRhythm? block = (t.firstRhythm? block).map Row.wordless := by
  unfold Table.firstRhythm? Table.wordless
  rw [List.find?_map]
  simp only [Function.comp_def, Row.isRhythm_wordless]
  rfl

theorem Table.opensWithHold_wordless (t : Table) : t.wordless.opensWithHold = t.opensWithHold := by
  funext block
  unfold Table.opensWithHold
  rw [Table.firstRhythm?_wordless]
  cases t.firstRhythm? block with
  | none => rfl
  | some r => exact r.kind_isHold_wordless

theorem resolve_wordless (continues : Int → Bool) (block : Option Int) (v : Voice) (rows : List Row) :
    Voicing.resolve continues block v (rows.map Row.wordless)
      = (Voicing.resolve continues block v rows).map Table.wordless := by
  induction rows generalizing block v with
  | nil => rfl
  | cons r rows ih =>
      have hletter : Voicing.sungLetter? r.wordless = Voicing.sungLetter? r := rfl
      have hstart : Voicing.start continues block v r.wordless = Voicing.start continues block v r := rfl
      have henters : Voicing.enters block r.wordless = Voicing.enters block r := rfl
      simp only [List.map_cons, Voicing.resolve, hletter, hstart, henters, Row.block_wordless,
        Row.shift_wordless, ih]
      generalize Voicing.start continues block v r = here
      generalize (if Voicing.enters block r then some r.block else block) = next
      cases Voicing.sungLetter? r with
      | none => cases Voicing.resolve continues next here rows <;> rfl
      | some name =>
          dsimp only
          cases Letter.ofName name with
          | error e => rfl
          | ok letter =>
              dsimp only
              cases Voicing.resolve continues next (here.move letter r.shift) rows <;> rfl

theorem Table.voiced_wordless (t : Table) :
    t.wordless.voiced = t.voiced.map Table.wordless := by
  unfold Table.voiced
  rw [Table.opensWithHold_wordless]
  exact resolve_wordless _ _ _ t

-- ========================================================== underlay

theorem Row.offeredTone?_wordless (r : Row) : r.wordless.offeredTone? = r.offeredTone? := by
  unfold Row.offeredTone?
  simp only [Row.kind_wordless_eq (k := .pitch) rfl]
  rfl

theorem Table.tones_wordless (t : Table) : t.wordless.tones = t.tones := by
  funext block
  unfold Table.tones Table.wordless
  rw [List.filterMap_map]
  simp only [Function.comp_def, Row.offeredTone?_wordless]
  rfl

theorem step_wordless (tones : Int → List Tone) (s : Underlay.State) (r : Row) :
    Underlay.step tones s r.wordless
      = ((Underlay.step tones s r).1, (Underlay.step tones s r).2.1.wordless,
          (Underlay.step tones s r).2.2) := by
  simp only [Underlay.step, Row.isAttack_wordless, Row.isHold_wordless,
    Row.kind_wordless_eq (k := .rest) rfl, Row.block_wordless]
  split
  · cases (tones r.block)[s.attacks.count r.block]? <;> rfl
  split
  · cases s.sounding <;> rfl
  split <;> rfl

theorem underlay_run_wordless (continues : Int → Bool) (tones : Int → List Tone) (s : Underlay.State)
    (rows : List Row) :
    Underlay.run continues tones s (rows.map Row.wordless)
      = (Underlay.run continues tones s rows).map fun p => (p.1.wordless, p.2) := by
  induction rows generalizing s with
  | nil => rfl
  | cons r rows ih =>
      have henter : s.enter continues r.wordless = s.enter continues r := rfl
      simp only [List.map_cons, Underlay.run, Row.source_wordless, henter, step_wordless, ih]
      split <;> rfl

theorem Table.underlaid_wordless (t : Table) :
    t.wordless.underlaid = t.underlaid.map fun p => (p.1.wordless, p.2) := by
  unfold Table.underlaid
  rw [Table.opensWithHold_wordless, Table.tones_wordless]
  exact underlay_run_wordless _ _ _ t

/-- Silence comes to attacks only. -/
theorem step_silent {tones : Int → List Tone} {s : Underlay.State} {r : Row}
    (h : (Underlay.step tones s r).2.2 = .silent) :
    (Underlay.step tones s r).2.1.isAttack = true := by
  have hstep := Underlay.step_stepped tones s r
  generalize Underlay.step tones s r = out at hstep h ⊢
  cases hstep with
  | silent hattack => exact hattack
  | sung | held | unheld | rest | other => cases h

theorem isAttack_of_silent {continues : Int → Bool} {tones : Int → List Tone} {s : Underlay.State}
    {rows : List Row} :
    ∀ p ∈ Underlay.run continues tones s rows, p.2 = .silent → p.1.isAttack = true := by
  induction rows generalizing s with
  | nil => exact fun p hp => absurd hp List.not_mem_nil
  | cons r rows ih =>
      unfold Underlay.run
      split
      · exact List.forall_mem_cons.2 ⟨step_silent, ih⟩
      · refine List.forall_mem_cons.2 ⟨fun hsilent => ?_, ih⟩
        cases hsilent

/-- A warning that does not tell the words of an attack. -/
def Warning.wordless : Warning → Warning
  | .noPitchLeft block measure _ => .noPitchLeft block measure Marker.attack.text
  | w => w

theorem Table.offeringBlocks_wordless (t : Table) : t.wordless.offeringBlocks = t.offeringBlocks := by
  unfold Table.offeringBlocks Table.wordless
  rw [List.filter_map, List.map_map]
  simp only [Function.comp_def, Row.offeredTone?_wordless]
  rfl

theorem Table.unusedTones_wordless (t : Table) : t.wordless.unusedTones = t.unusedTones := by
  funext block
  unfold Table.unusedTones
  rw [Table.tones_wordless]
  unfold Table.wordless
  rw [List.filter_map, List.length_map]
  simp only [Function.comp_def, Row.isAttack_wordless]
  rfl

theorem Table.underlayWarnings_wordless (t : Table) :
    t.wordless.underlayWarnings = t.underlayWarnings.map Warning.wordless := by
  unfold Table.underlayWarnings
  rw [Table.underlaid_wordless, Table.offeringBlocks_wordless, Table.unusedTones_wordless,
    List.map_append, List.filterMap_map, List.map_filterMap, List.map_filterMap]
  congr 1
  · refine List.filterMap_congr fun p hp => ?_
    dsimp only [Function.comp_def]
    split
    · next hsilent =>
      have hattack := isAttack_of_silent p hp hsilent
      simp [Row.wordless, Warning.wordless, hattack]
    · rfl
  · congr 1
    funext block
    split <;> rfl

-- =========================================================== heading

theorem Table.withHeading_wordless (t : Table) (title : String) :
    t.wordless.withHeading title = (t.withHeading title).wordless := by
  unfold Table.withHeading Table.wordless
  rw [List.map_append]
  rfl

/-- A field of the heading has no words. -/
theorem Row.raw_wordless_eq {r : Row} {name : String} :
    (r.wordless.source = .header ∧ r.wordless.raw = name) ↔ (r.source = .header ∧ r.raw = name) := by
  rw [Row.source_wordless]
  refine and_congr_right fun hsource => ?_
  rw [Row.raw_wordless (Row.isAttack_of_source (by rw [hsource]; decide))]

theorem Table.setField_wordless (t : Table) (name value : String) :
    t.wordless.setField name value = (t.setField name value).wordless := by
  unfold Table.setField Table.wordless
  rw [List.map_map, List.map_map]
  refine List.map_congr_left fun r _ => ?_
  dsimp only [Function.comp_def]
  simp only [Row.raw_wordless_eq]
  split <;> rfl

-- ============================================================= units

theorem Units.firstRhythm?_wordless (block : Int) (index : Nat) (rows : List Row) :
    Units.firstRhythm? block index (rows.map Row.wordless) = Units.firstRhythm? block index rows := by
  induction rows generalizing index with
  | nil => rfl
  | cons r rows ih =>
      simp only [List.map_cons, Units.firstRhythm?, Row.block_wordless, Row.source_wordless,
        Row.isRhythm_wordless, Row.kind_wordless_eq (k := .barline) rfl, ih]

theorem declarations_wordless_from (t : Table) (block : Option Int) (start : Nat)
    (rows : List PlacedRow) :
    Units.declarations t.wordless block start (rows.map PlacedRow.wordless)
      = Units.declarations t block start rows := by
  induction rows generalizing block start with
  | nil => rfl
  | cons p rows ih =>
      obtain ⟨r, index⟩ := p
      have hdrop : ∀ n, t.wordless.drop n = (t.drop n).map Row.wordless := fun n => List.map_drop.symm
      simp only [List.map_cons, PlacedRow.wordless, Units.declarations, Row.block_wordless,
        Row.source_wordless, Row.kind_wordless_eq (k := .barline) rfl,
        Row.kind_wordless_eq (k := .unit) rfl, ih, hdrop, Units.firstRhythm?_wordless]
      split
      · rfl
      split
      · rfl
      split
      · next hunit =>
        rw [Row.raw_wordless (Row.isAttack_of_kind (by rw [hunit]; rfl))]
        rfl
      · rfl

theorem Table.declarations_wordless (t : Table) : t.wordless.declarations = t.declarations := by
  unfold Table.declarations
  rw [Table.zipIdx_wordless]
  exact declarations_wordless_from t none 0 t.zipIdx

theorem spread_wordless (ds : List Declaration) (unit : Rat) (rows : List PlacedRow) :
    Units.spread ds unit (rows.map PlacedRow.wordless) = (Units.spread ds unit rows).map Row.wordless := by
  induction rows generalizing unit with
  | nil => rfl
  | cons p rows ih =>
      obtain ⟨r, index⟩ := p
      simp only [List.map_cons, PlacedRow.wordless, Units.spread, ih]
      congr 1
      have hrhythm : Row.isRhythm { r.wordless with
          declared := (Units.declaredAt? ds index).or r.wordless.declared }
          = Row.isRhythm { r with declared := (Units.declaredAt? ds index).or r.declared } :=
        r.isRhythm_wordless
      rw [hrhythm]
      split <;> rfl

theorem headingUnit_wordless (ds : List Declaration) (rows : List Row) :
    Units.headingUnit ds (rows.map Row.wordless) = Units.headingUnit ds rows := by
  unfold Units.headingUnit
  rw [List.find?_map]
  simp only [Function.comp_def, Row.isRhythm_wordless]
  cases rows.find? fun r => r.isRhythm <;> rfl

theorem Table.withUnitsOf_wordless (t : Table) (ds : List Declaration) :
    t.wordless.withUnitsOf ds = (t.withUnitsOf ds).wordless := by
  unfold Table.withUnitsOf
  dsimp only
  rw [Table.zipIdx_wordless, spread_wordless, headingUnit_wordless]
  exact Table.setField_wordless _ _ _

-- ============================================================ meters

/-- A measure whose attacks are sung on no syllable. -/
def Measure.wordless (m : Measure) : Measure :=
  { m with first := PlacedRow.wordless m.first, others := m.others.map PlacedRow.wordless }

theorem countBeats_wordless (unit : Rat) (rows : List PlacedRow) :
    Measure.countBeats unit ((rows.map PlacedRow.wordless).map (·.1))
      = Measure.countBeats unit (rows.map (·.1)) := by
  unfold Measure.countBeats
  rw [List.length_map, List.length_map, List.length_map, List.filterMap_map, List.filterMap_map,
    List.filterMap_map]
  rfl

theorem ofMembers?_wordless (key : MeasureKey) (rows : List PlacedRow) :
    Measure.ofMembers? key (rows.map PlacedRow.wordless)
      = (Measure.ofMembers? key rows).map Measure.wordless := by
  cases rows with
  | nil => rfl
  | cons first others =>
      have hcount : Measure.countBeats first.1.effectiveUnit
          ((PlacedRow.wordless first :: others.map PlacedRow.wordless).map (·.1))
          = Measure.countBeats first.1.effectiveUnit ((first :: others).map (·.1)) :=
        countBeats_wordless _ (first :: others)
      have hunit : (PlacedRow.wordless first).1.effectiveUnit = first.1.effectiveUnit := rfl
      rw [List.map_cons]
      unfold Measure.ofMembers?
      dsimp only
      rw [hunit, hcount]
      rfl

theorem Table.measures_wordless (t : Table) :
    t.wordless.measures = t.measures.map Measure.wordless := by
  have hclasses := @classes_map PlacedRow PlacedRow MeasureKey _ (·.1.measureKey?) (·.1.measureKey?)
    PlacedRow.wordless t.zipIdx fun p _ => p.1.measureKey?_wordless
  unfold Table.measures
  rw [Table.zipIdx_wordless, hclasses, List.filterMap_map, List.map_filterMap]
  congr 1
  funext c
  exact ofMembers?_wordless c.1 c.2

theorem withChanges_wordless (previous : Option Measure) (ms : List Measure) :
    Measure.withChanges (previous.map Measure.wordless) (ms.map Measure.wordless)
      = (Measure.withChanges previous ms).map fun m => (m.1.wordless, m.2) := by
  induction ms generalizing previous with
  | nil => cases previous <;> rfl
  | cons m ms ih =>
      have hrest := ih (some m)
      cases previous with
      | none => exact congrArg (_ :: ·) hrest
      | some q => exact congrArg (_ :: ·) hrest

theorem canWrite_wordless (previous : Option Measure) (ms : List Measure) :
    Measure.canWrite (previous.map Measure.wordless) (ms.map Measure.wordless)
      = Measure.canWrite previous ms := by
  induction ms generalizing previous with
  | nil => cases previous <;> rfl
  | cons m ms ih =>
      have hrest := ih (some m)
      cases previous with
      | none => exact congrArg (fits m.beats && ·) hrest
      | some q =>
          exact congrArg ((fits m.beats && (m.unit == q.unit || ratFits m.unit)) && ·) hrest

theorem mark_wordless (m : Measure × List String) (r : Row) (index : Nat) :
    Measure.mark (m.1.wordless, m.2) r.wordless index = (Measure.mark m r index).wordless := by
  unfold Measure.mark
  dsimp only
  rw [show m.1.wordless.first.2 = m.1.first.2 from rfl]
  split <;> rfl

theorem Table.announced_wordless (t : Table) :
    t.wordless.announced = t.announced.map fun m => (m.1.wordless, m.2) := by
  unfold Table.announced
  rw [Table.measures_wordless]
  exact withChanges_wordless none t.measures

theorem Table.headingMeter_wordless (t : Table) : t.wordless.headingMeter = t.headingMeter := by
  unfold Table.headingMeter
  rw [Table.measures_wordless]
  cases t.measures <;> rfl

theorem Table.withMetersText_wordless (t : Table) :
    t.wordless.withMetersText = t.withMetersText.wordless := by
  unfold Table.withMetersText
  dsimp only
  rw [Table.headingMeter_wordless, Table.announced_wordless, ← Table.setField_wordless]
  congr 1
  refine (Table.wordless_zipIdx_map t fun p => ?_).symm
  rw [show p.wordless.1 = p.1.wordless from rfl, Row.measureKey?_wordless]
  cases p.1.measureKey? with
  | none => rfl
  | some key =>
      simp only [Option.bind_some, List.find?_map, Function.comp_def]
      rw [show (fun m : Measure × List String => decide (m.1.wordless.key = key))
        = fun m => decide (m.1.key = key) from rfl]
      cases t.announced.find? fun m => decide (m.1.key = key) with
      | none => rfl
      | some m => exact (mark_wordless m p.1 p.2).symm

theorem Table.withMeters_wordless (t : Table) :
    t.wordless.withMeters = t.withMeters.map Table.wordless := by
  have hfits : Measure.canWrite none (t.measures.map Measure.wordless)
      = Measure.canWrite none t.measures := canWrite_wordless none t.measures
  unfold Table.withMeters
  rw [Table.measures_wordless, hfits, Table.withMetersText_wordless]
  split <;> rfl

-- ============================================================== keys

theorem Keys.isLyricBarline_wordless (r : Row) :
    Keys.isLyricBarline r.wordless = Keys.isLyricBarline r := by
  unfold Keys.isLyricBarline Row.wordless Row.isAttack
  cases r.source <;> cases r.kind <;> rfl

theorem Keys.barlines_wordless (t : Table) : Keys.barlines t.wordless = Keys.barlines t := by
  funext block
  unfold Keys.barlines
  rw [Table.zipIdx_wordless, List.filter_map, List.map_map]
  simp only [Function.comp_def, PlacedRow.wordless, Keys.isLyricBarline_wordless, Row.block_wordless]

theorem Keys.firstNote?_wordless (t : Table) : Keys.firstNote? t.wordless = Keys.firstNote? t := by
  funext block
  unfold Keys.firstNote?
  rw [Table.zipIdx_wordless, List.find?_map, Option.map_map]
  simp only [Function.comp_def, PlacedRow.wordless, Row.isRhythm_wordless, Row.block_wordless]

theorem Keys.effect_wordless (t : Table) (s : Keys.State) (r : Row) (key : String) :
    Keys.effect t.wordless s r.wordless key = Keys.effect t s r key := by
  unfold Keys.effect
  rw [Keys.firstNote?_wordless, Keys.barlines_wordless]
  rfl

/-- Pitch rows have no words. -/
theorem Row.wordless_of_pitch {r : Row} (h : r.source = .pitch) : r.wordless = r :=
  Row.wordless_eq_self (Row.isAttack_of_source (by rw [h]; decide))

theorem Keys.mark?_wordless (t : Table) (s : Keys.State) (p : PlacedRow) :
    Keys.mark? t.wordless s p.wordless = Keys.mark? t s p := by
  obtain ⟨r, index⟩ := p
  by_cases hpitch : r.source = .pitch
  · have heffect := fun key => Keys.effect_wordless t (s.enter r) r key
    rw [Row.wordless_of_pitch hpitch] at heffect
    simp only [Keys.mark?, PlacedRow.wordless, Row.wordless_of_pitch hpitch, heffect]
  · simp [Keys.mark?, PlacedRow.wordless, hpitch]

theorem Keys.behind_wordless (t : Table) (s : Keys.State) (p : PlacedRow) :
    s.behind t.wordless p.wordless = s.behind t p := by
  obtain ⟨r, index⟩ := p
  by_cases hpitch : r.source = .pitch
  · have heffect := fun key => Keys.effect_wordless t (s.enter r) r key
    rw [Row.wordless_of_pitch hpitch] at heffect
    simp only [Keys.State.behind, PlacedRow.wordless, Row.wordless_of_pitch hpitch, heffect]
  · simp [Keys.State.behind, PlacedRow.wordless, hpitch]

theorem Keys.marks_wordless (t : Table) (s : Keys.State) (rows : List PlacedRow) :
    Keys.marks t.wordless s (rows.map PlacedRow.wordless) = Keys.marks t s rows := by
  induction rows generalizing s with
  | nil => rfl
  | cons p rows ih =>
      rw [List.map_cons, Keys.marks_cons, Keys.marks_cons, Keys.mark?_wordless, Keys.behind_wordless, ih]

theorem Table.keyMarks_wordless (t : Table) : t.wordless.keyMarks = t.keyMarks := by
  unfold Table.keyMarks
  rw [Table.zipIdx_wordless]
  exact Keys.marks_wordless t {} t.zipIdx

theorem Keys.write_wordless (index : Nat) (r : Row) (m : KeyMark) :
    Keys.write index r.wordless m = (Keys.write index r m).wordless := by
  have hown : (if m.index = index then { r.wordless with key := some m.key } else r.wordless)
      = (if m.index = index then { r with key := some m.key } else r).wordless := by
    split <;> rfl
  unfold Keys.write
  rw [hown]
  dsimp only
  generalize (if m.index = index then { r with key := some m.key } else r) = own
  split
  · split <;> rfl
  · split <;> rfl
  · rfl

theorem Keys.annotate_wordless (ms : List KeyMark) (r : Row) (index : Nat) :
    Keys.annotate ms r.wordless index = (Keys.annotate ms r index).wordless := by
  have hstroke : (if Keys.isLyricBarline r.wordless then { r.wordless with draftText := some Keys.bar }
        else r.wordless)
      = (if Keys.isLyricBarline r then { r with draftText := some Keys.bar } else r).wordless := by
    rw [Keys.isLyricBarline_wordless]
    split <;> rfl
  unfold Keys.annotate
  rw [hstroke]
  generalize (if Keys.isLyricBarline r then { r with draftText := some Keys.bar } else r) = row
  induction ms generalizing row with
  | nil => rfl
  | cons m ms ih =>
      rw [List.foldl_cons, List.foldl_cons, Keys.write_wordless]
      exact ih _

theorem Table.withKeys_wordless (t : Table) : t.wordless.withKeys = t.withKeys.wordless := by
  unfold Table.withKeys
  dsimp only
  rw [Table.keyMarks_wordless, ← Table.setField_wordless]
  congr 1
  exact (Table.wordless_zipIdx_map t fun p => (Keys.annotate_wordless t.keyMarks p.1 p.2).symm).symm

-- ============================================================= notes

theorem Row.isSilent_wordless (r : Row) : r.wordless.isSilent = r.isSilent := by
  unfold Row.isSilent Row.wordless Row.isAttack
  cases r.source <;> cases r.kind <;> rfl

theorem Row.encode_wordless (r : Row) (length : Rat) (opening : String) :
    r.wordless.encode length opening = r.encode length opening := by
  unfold Row.encode
  rw [Row.isSilent_wordless, Row.isHold_wordless]
  rfl

/-- Words are no part of a note. -/
theorem Row.sameNotes_wordless (r : Row) : r.SameNotes r.wordless where
  beatKey? := r.beatKey?_wordless
  measure := rfl
  pickup := rfl
  unit := rfl
  duration := rfl
  meter := rfl
  isAttack := r.isAttack_wordless
  isHold := r.isHold_wordless
  letter := rfl
  octave := rfl
  encode := r.encode_wordless
  noteText := rfl

namespace BeatGroup

/-- A beat whose attacks are sung on no syllable. -/
def wordless (g : BeatGroup) : BeatGroup :=
  g.mapRows fun p => p.1.wordless

theorem members_wordless (g : BeatGroup) : g.wordless.members = g.members.map PlacedRow.wordless := rfl

@[simp] theorem unit_wordless (g : BeatGroup) : g.wordless.unit = g.unit := rfl

@[simp] theorem count_wordless (g : BeatGroup) : g.wordless.count = g.count :=
  BeatGroup.count_mapRows _ g

@[simp] theorem length_wordless (g : BeatGroup) : g.wordless.length = g.length :=
  g.length_recast Row.sameNotes_wordless

@[simp] theorem bracketed_wordless (g : BeatGroup) : g.wordless.bracketed = g.bracketed :=
  g.bracketed_recast Row.sameNotes_wordless

@[simp] theorem span_wordless (g : BeatGroup) : g.wordless.span = g.span :=
  g.span_recast Row.sameNotes_wordless

@[simp] theorem opening_wordless (g : BeatGroup) : g.wordless.opening = g.opening :=
  g.opening_recast Row.sameNotes_wordless

end BeatGroup

theorem Table.beats_wordless (t : Table) : t.wordless.beats = t.beats.map BeatGroup.wordless :=
  t.beats_map Row.sameNotes_wordless

theorem BeatGroup.token_wordless (g : BeatGroup) (p : PlacedRow) :
    g.wordless.token p.wordless = g.token p := by
  unfold BeatGroup.token
  rw [BeatGroup.length_wordless, BeatGroup.opening_wordless]
  exact p.1.encode_wordless _ _

theorem BeatGroup.fragment_wordless (g : BeatGroup) : g.wordless.fragment = g.fragment := by
  unfold BeatGroup.fragment
  rw [BeatGroup.members_wordless, List.map_map]
  congr 1
  exact List.map_congr_left fun p _ => g.token_wordless p

theorem BeatGroup.encodeRow_wordless (g : BeatGroup) (p : PlacedRow) :
    g.wordless.encodeRow p.wordless = (g.encodeRow p).wordless := by
  unfold BeatGroup.encodeRow
  rw [BeatGroup.token_wordless, BeatGroup.fragment_wordless]
  rfl

theorem beatOf?_wordless (groups : List BeatGroup) (r : Row) :
    Table.beatOf? (groups.map BeatGroup.wordless) r.wordless
      = (Table.beatOf? groups r).map BeatGroup.wordless := by
  unfold Table.beatOf?
  rw [Row.beatKey?_wordless]
  cases r.beatKey? with
  | none => rfl
  | some key => exact List.find?_map

theorem Table.withNotesText_wordless (t : Table) :
    t.wordless.withNotesText = t.withNotesText.wordless := by
  unfold Table.withNotesText
  dsimp only
  rw [Table.beats_wordless]
  refine (Table.wordless_zipIdx_map t fun p => ?_).symm
  rw [show p.wordless.1 = p.1.wordless from rfl, beatOf?_wordless]
  cases Table.beatOf? t.beats p.1 with
  | none => rfl
  | some g => exact (g.encodeRow_wordless p).symm

theorem Table.withNotes_wordless (t : Table) :
    t.wordless.withNotes = t.withNotes.map Table.wordless := by
  unfold Table.withNotes
  rw [Table.beats_wordless, List.all_map, Table.withNotesText_wordless]
  simp only [Function.comp_def, BeatGroup.length_wordless]
  split <;> rfl

theorem Table.noteCounts_wordless (t : Table) : t.wordless.noteCounts = t.noteCounts := by
  have hrows : (t.beats.map BeatGroup.wordless).flatMap (·.members)
      = (t.beats.flatMap (·.members)).map PlacedRow.wordless := by
    rw [List.flatMap_map, List.map_flatMap]
    rfl
  unfold Table.noteCounts
  dsimp only
  rw [Table.beats_wordless, hrows, List.filter_map, List.filter_map, List.filter_map]
  simp only [List.length_map, Function.comp_def, BeatGroup.bracketed_wordless, PlacedRow.wordless,
    Row.isSilent_wordless, Row.isHold_wordless]

-- ============================================================== ties

theorem Table.withTexts_wordless (t : Table) (texts : List (Nat × String)) :
    t.wordless.withTexts texts = (t.withTexts texts).wordless :=
  (Table.wordless_zipIdx_map t fun _ => rfl).symm

theorem Table.withTies_wordless (t : Table) (fold : Bool) :
    t.wordless.withTies fold = (t.withTies fold).map fun p => (p.1.wordless, p.2) := by
  have hfolding : t.wordless.folding = t.folding := t.folding_map Row.sameNotes_wordless
  unfold Table.withTies
  rw [hfolding]
  split
  · cases t.folding with
    | error e => rfl
    | ok f =>
        simp only [Except.map, Table.withTexts_wordless]
  · rw [Table.withTexts_wordless]
    rfl

-- =============================================================== tune

theorem Table.headingLines_wordless (t : Table) : t.wordless.headingLines = t.headingLines := by
  have hheader : ∀ r : Row, r.source = .header → r.wordless = r := fun r h =>
    Row.wordless_eq_self (Row.isAttack_of_source (by rw [h]; decide))
  unfold Table.headingLines Table.wordless
  rw [List.filter_map, List.map_map]
  have hfilter : t.filter ((fun r => decide (r.source = .header ∧ ¬ (r.raw = "T" ∧ r.text = "")))
        ∘ Row.wordless)
      = t.filter fun r => decide (r.source = .header ∧ ¬ (r.raw = "T" ∧ r.text = "")) := by
    refine List.filter_congr fun r _ => ?_
    by_cases h : r.source = .header
    · rw [Function.comp_apply, hheader r h]
    · simp [h]
  rw [hfilter]
  refine List.map_congr_left fun r hr => ?_
  rw [Function.comp_apply, hheader r (of_decide_eq_true (List.mem_filter.1 hr).2).1]

theorem Table.musicLines_wordless (t : Table) : t.wordless.musicLines = t.musicLines := by
  have hblocks : t.wordless.lyricBlocks = t.lyricBlocks := by
    unfold Table.lyricBlocks Table.wordless
    rw [List.filter_map, List.map_map]
    rfl
  have hmusic : t.wordless.blockMusic = t.blockMusic := by
    funext block
    unfold Table.blockMusic Table.wordless
    rw [List.filter_map, List.flatMap_map]
    rfl
  unfold Table.musicLines
  rw [hblocks, hmusic]

theorem Table.tune_wordless (t : Table) : t.wordless.tune = t.tune := by
  unfold Table.tune
  rw [Table.headingLines_wordless, Table.musicLines_wordless]

-- ======================================================= performance

theorem Table.openingKey_wordless (t : Table) : t.wordless.openingKey = t.openingKey := by
  have hfield : t.wordless.field? "K" = t.field? "K" := by
    unfold Table.field? Table.wordless
    rw [List.find?_map, Option.map_map]
    simp only [Function.comp_def, Row.raw_wordless_eq]
    rfl
  unfold Table.openingKey
  rw [hfield]

theorem BeatGroup.step_wordless (g : BeatGroup) : g.wordless.step = g.step := by
  unfold BeatGroup.step
  rw [BeatGroup.span_wordless, BeatGroup.count_wordless, BeatGroup.unit_wordless]

theorem play_wordless (groups : List BeatGroup) (s : Performance.State) (rows : List Row) :
    Performance.play (groups.map BeatGroup.wordless) s (rows.map Row.wordless)
      = Performance.play groups s rows := by
  induction rows generalizing s with
  | nil => rfl
  | cons r rows ih =>
      have henter : s.enter r.wordless = s.enter r := rfl
      have hattack : ∀ (s : Performance.State) (letter : Letter) (octave : Int) (step : Rat),
          s.attack letter r.wordless octave step = s.attack letter r octave step := fun _ _ _ _ => rfl
      simp only [List.map_cons, Performance.play, Row.source_wordless, henter,
        Row.kind_wordless_eq (k := .barline) rfl, beatOf?_wordless, ih]
      split
      · rfl
      split
      · rfl
      cases Table.beatOf? groups r with
      | none => rfl
      | some g =>
          simp only [Option.map_some, BeatGroup.step_wordless, Row.isAttack_wordless,
            Row.isHold_wordless, hattack]
          rfl

theorem Table.events_wordless (t : Table) : t.wordless.events = t.events := by
  unfold Table.events
  rw [Table.beats_wordless, Table.openingKey_wordless]
  exact play_wordless _ _ t

end LyricScore
