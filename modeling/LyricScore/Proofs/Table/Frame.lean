/-
What the stages leave as it is. Each stage fills in its own fields of the rows and keeps all
others; behind the underlay no stage touches what a row sings. So the outline of a table and its
tones pass from stage to stage, and with them all that is known of order, places and tones.
-/
import LyricScore.Proofs.Table.Linked
import LyricScore.Proofs.Table.Outline
import LyricScore.Table.Meters
import LyricScore.Table.Ties
import LyricScore.Table.Underlay
import LyricScore.Table.Units
import LyricScore.Table.Voicing

namespace LyricScore

-- ================================================= what a row sings

/-- The outline of a row with its tone. -/
def Row.sung (r : Row) : Row :=
  { r.outline with letter := r.letter, accidental := r.accidental, octave := r.octave }

/-- A lyric row has a letter that exists together with an octave, or neither; a rest has none. -/
structure Row.Tuned (r : Row) : Prop where
  both : r.letter.isSome = r.octave.isSome
  letter : ∀ name ∈ r.letter, ∃ letter : Letter, name = letter.name
  silent : r.kind = .rest → r.letter = none

/-- All lyric rows of a table are tuned. -/
def Table.Tuned (t : Table) : Prop :=
  ∀ r ∈ t, r.source = .lyric → r.Tuned

theorem map_outline_of_sung {t t' : Table} (h : t'.map Row.sung = t.map Row.sung) :
    t'.map Row.outline = t.map Row.outline := by
  have houtline : Row.outline = Row.outline ∘ Row.sung := rfl
  rw [houtline, ← List.map_map, h, List.map_map]

theorem Table.Tuned.of_sung {t t' : Table} (h : t.Tuned)
    (hsung : t'.map Row.sung = t.map Row.sung) : t'.Tuned := by
  intro r hr hsource
  have hmem : r.sung ∈ t.map Row.sung := hsung ▸ List.mem_map_of_mem hr
  obtain ⟨r', hr', heq⟩ := List.mem_map.1 hmem
  have hkeeps : ∀ {β : Type} (g : Row → β), g r'.sung = g r.sung := fun g => congrArg g heq
  have hletter : r'.letter = r.letter := hkeeps Row.letter
  have hoctave : r'.octave = r.octave := hkeeps Row.octave
  have hkind : r'.kind = r.kind := hkeeps Row.kind
  obtain ⟨hboth, hname, hsilent⟩ := h r' hr' ((hkeeps Row.source).trans hsource)
  rw [hletter] at hboth hname hsilent
  rw [hoctave] at hboth
  rw [hkind] at hsilent
  exact ⟨hboth, hname, hsilent⟩

/-- Whether a row takes time, and in which beat, shows in what it sings. -/
theorem keys_of_sung {r r' : Row} (h : r'.sung = r.sung) :
    r'.isRhythm = r.isRhythm ∧ r'.beatKey? = r.beatKey? ∧ r'.measureKey? = r.measureKey? := by
  have hkeeps : ∀ {β : Type} (g : Row → β), g r'.sung = g r.sung := fun g => congrArg g h
  exact ⟨hkeeps Row.isRhythm, hkeeps Row.beatKey?, hkeeps Row.measureKey?⟩

-- ===================================================== rows in a line

/-- The heading takes no time. -/
theorem linked_setField_iff {R : Option Row → Row → Prop} {name value : String}
    {previous : Option Row} {t : Table} :
    Linked Row.isRhythm R previous (t.setField name value) ↔ Linked Row.isRhythm R previous t := by
  induction t generalizing previous with
  | nil => exact Iff.rfl
  | cons r rest ih =>
      show Linked Row.isRhythm R previous ((if _ then _ else r) :: Table.setField name value rest) ↔ _
      split
      · next hheader =>
        have hrhythm : ¬r.isRhythm = true := by simp [Row.isRhythm, hheader.1]
        rw [Linked.cons_iff, Linked.cons_iff, if_neg hrhythm]
        exact (iff_of_eq (if_neg hrhythm)).trans ih
      · rw [Linked.cons_iff, Linked.cons_iff]
        split
        · exact and_congr Iff.rfl ih
        · exact ih

/-- Rows seen with their places. -/
theorem linked_zipIdx_iff {R : Option Row → Row → Prop} {t : Table} :
    Linked Row.isRhythm R none t
      ↔ Linked (fun p : PlacedRow => p.1.isRhythm) (fun previous p => R (previous.map (·.1)) p.1) none
          t.zipIdx := by
  have hmap := @Linked.map_iff Row PlacedRow Row.isRhythm R Prod.fst none t.zipIdx
  rwa [List.zipIdx_map_fst] at hmap

/-- Rows replaced place by place. -/
theorem linked_zipIdx_map_iff {S : Option Row → Row → Prop} {t : Table} {f : PlacedRow → Row}
    (hf : ∀ p ∈ t.zipIdx, (f p).isRhythm = p.1.isRhythm) :
    Linked Row.isRhythm S none (t.zipIdx.map f)
      ↔ Linked (fun p : PlacedRow => p.1.isRhythm) (fun previous p => S (previous.map f) (f p)) none
          t.zipIdx :=
  (@Linked.map_iff Row PlacedRow Row.isRhythm S f none t.zipIdx).trans (Linked.congr_timed hf)

/-- The nearest row before a place that takes time. -/
def Table.rhythmBefore (t : Table) (place : Nat) : Option Row :=
  (t.take place).reverse.find? Row.isRhythm

/-- Rows are linked if each that takes time is seen with the nearest one before it. -/
theorem linked_iff_rhythmBefore {R : Option Row → Row → Prop} {t : Table} :
    Linked Row.isRhythm R none t
      ↔ ∀ p ∈ t.zipIdx, p.1.isRhythm = true → R (t.rhythmBefore p.2) p.1 := by
  rw [Linked.iff_nearest]
  constructor
  · intro h p hp hrhythm
    have hget : t[p.2]? = some p.1 := List.mem_zipIdx_iff_getElem?.1 hp
    obtain ⟨hlt, hrow⟩ := List.getElem?_eq_some_iff.1 hget
    have hsplit : t = t.take p.2 ++ p.1 :: t.drop (p.2 + 1) := by
      rw [← hrow, ← List.drop_eq_getElem_cons hlt, List.take_append_drop]
    have hR := h _ _ _ hsplit hrhythm
    rwa [Option.or_none] at hR
  · intro h before r after hsplit hrhythm
    have hp : (r, before.length) ∈ t.zipIdx := by
      apply List.mem_zipIdx_iff_getElem?.2
      simp [hsplit]
    have hR := h _ hp hrhythm
    unfold Table.rhythmBefore at hR
    rw [hsplit, List.take_left] at hR
    rwa [Option.or_none]

/-- Every hold with a pitch goes on with a row that has one. -/
def Table.Sustained (t : Table) : Prop :=
  ∀ p ∈ t.zipIdx, p.1.isHold = true → p.1.hasPitch = true →
    (t.rhythmBefore p.2).any Row.hasPitch = true

instance (t : Table) : Decidable t.Sustained :=
  inferInstanceAs (Decidable (∀ p ∈ t.zipIdx, _ → _ → _ = true))

-- ============================================== stages by row and place

/-- A stage that keeps something of every row keeps it of the table. -/
theorem map_zipIdx_map {β : Type} {t : Table} {f : PlacedRow → Row} {g : Row → β}
    (h : ∀ p ∈ t.zipIdx, g (f p) = g p.1) : (t.zipIdx.map f).map g = t.map g := by
  rw [List.map_map, ← List.zipIdx_map_fst 0 t, List.map_map, List.zipIdx_map_fst]
  exact List.map_congr_left h

/-- A row without what is written on it behind the underlay, but for its final text. -/
def Row.unmarked (r : Row) : Row :=
  { r with
    unit := none
    declared := none
    meter := none
    directive := ""
    key := none
    noteText := none
    draftText := none }

theorem map_sung_of_unmarked {t t' : Table} (h : t'.map Row.unmarked = t.map Row.unmarked) :
    t'.map Row.sung = t.map Row.sung := by
  have hsung : Row.sung = Row.sung ∘ Row.unmarked := rfl
  rw [hsung, ← List.map_map, h, List.map_map]

theorem map_unmarked_setField (name value : String) (t : Table) :
    (t.setField name value).map Row.unmarked = t.map Row.unmarked := by
  unfold Table.setField
  rw [List.map_map]
  refine List.map_congr_left fun r _ => ?_
  show (ite _ _ _ : Row).unmarked = _
  split <;> rfl

theorem map_unmarked_spread (ds : List Declaration) (unit : Rat) (rows : List PlacedRow) :
    (Units.spread ds unit rows).map Row.unmarked = rows.map fun p => p.1.unmarked := by
  induction rows generalizing unit with
  | nil => rfl
  | cons p rest ih =>
      simp only [Units.spread, List.map_cons, ih]
      congr 1
      split <;> rfl

theorem map_unmarked_spread_zipIdx (ds : List Declaration) (unit : Rat) (t : Table) :
    (Units.spread ds unit t.zipIdx).map Row.unmarked = t.map Row.unmarked := by
  rw [map_unmarked_spread, ← List.zipIdx_map_fst 0 t, List.map_map, List.zipIdx_map_fst]
  rfl

theorem map_unmarked_withUnitsOf (t : Table) (ds : List Declaration) :
    (t.withUnitsOf ds).map Row.unmarked = t.map Row.unmarked := by
  unfold Table.withUnitsOf
  rw [map_unmarked_setField, map_unmarked_spread_zipIdx]

theorem unmarked_mark (m : Measure × List String) (r : Row) (index : Nat) :
    (Measure.mark m r index).unmarked = r.unmarked := by
  simp only [Measure.mark]
  split <;> rfl

theorem map_unmarked_withMetersText (t : Table) :
    t.withMetersText.map Row.unmarked = t.map Row.unmarked := by
  unfold Table.withMetersText
  rw [map_unmarked_setField]
  refine map_zipIdx_map fun p _ => ?_
  split
  · rfl
  · exact unmarked_mark _ _ _

/-- A row without what the key signatures write on it. -/
def Row.keyless (r : Row) : Row :=
  { r with directive := "", key := none, draftText := none }

theorem keyless_write (index : Nat) (r : Row) (m : KeyMark) :
    (Keys.write index r m).keyless = r.keyless := by
  have hown : (if m.index = index then { r with key := some m.key } else r).keyless = r.keyless := by
    split <;> rfl
  simp only [Keys.write]
  split
  · split
    · exact hown
    · exact hown
  · split
    · exact hown
    · exact hown
  · exact hown

theorem keyless_annotate (ms : List KeyMark) (r : Row) (index : Nat) :
    (Keys.annotate ms r index).keyless = r.keyless := by
  have hfold : ∀ r : Row, (ms.foldl (Keys.write index) r).keyless = r.keyless := by
    induction ms with
    | nil => exact fun _ => rfl
    | cons m ms ih => exact fun r => (ih _).trans (keyless_write index r m)
  unfold Keys.annotate
  rw [hfold]
  split <;> rfl

theorem sung_annotate (ms : List KeyMark) (r : Row) (index : Nat) :
    (Keys.annotate ms r index).sung = r.sung := by
  have hsung := congrArg Row.sung (keyless_annotate ms r index)
  exact hsung

theorem map_unmarked_withKeys (t : Table) : t.withKeys.map Row.unmarked = t.map Row.unmarked := by
  simp only [Table.withKeys]
  rw [map_unmarked_setField]
  refine map_zipIdx_map fun p _ => ?_
  have hunmarked := congrArg Row.unmarked (keyless_annotate t.keyMarks p.1 p.2)
  exact hunmarked

theorem map_unmarked_withNotesText (t : Table) :
    t.withNotesText.map Row.unmarked = t.map Row.unmarked := by
  refine map_zipIdx_map fun p _ => ?_
  split <;> rfl

theorem map_sung_withTexts (t : Table) (texts : List (Nat × String)) :
    (t.withTexts texts).map Row.sung = t.map Row.sung :=
  map_zipIdx_map fun _ _ => rfl

-- =========================================================== heading

/-- The fields of the heading with their drafts. -/
def Table.fields (t : Table) : List (String × String) :=
  (t.filter fun r => decide (r.source = .header)).map fun r => (r.raw, r.draftText.getD "")

theorem fields_cons (r : Row) (t : Table) :
    Table.fields (r :: t)
      = if r.source = .header then (r.raw, r.draftText.getD "") :: t.fields else t.fields := by
  unfold Table.fields
  rw [List.filter_cons]
  by_cases h : r.source = .header <;> simp [h]

theorem fields_setField (name value : String) (t : Table) :
    (t.setField name value).fields
      = t.fields.map fun f => if f.1 = name then (f.1, value) else f := by
  induction t with
  | nil => rfl
  | cons r t ih =>
      show Table.fields ((if _ then _ else r) :: Table.setField name value t) = _
      rw [fields_cons, fields_cons, ih]
      by_cases hheader : r.source = .header
      · by_cases hname : r.raw = name
        · simp [hheader, hname]
        · simp [hheader, hname]
      · simp [hheader]

/-- A field that is set has its new value, and the others have their old ones. -/
theorem lookup_set (name value field : String) (fields : List (String × String)) :
    (fields.map fun f => if f.1 = name then (f.1, value) else f).lookup field
      = if field = name then (fields.lookup field).map fun _ => value else fields.lookup field := by
  induction fields with
  | nil =>
      show none = if field = name then none else none
      exact (ite_self none).symm
  | cons f fields ih =>
      rw [List.map_cons, List.lookup_cons, List.lookup_cons, ih]
      by_cases hf : f.1 = name
      · by_cases hfield : field = f.1
        · simp [hf, hfield]
        · rw [if_pos hf, beq_eq_false_iff_ne.2 hfield]
      · by_cases hfield : field = f.1
        · simp [hf, hfield]
        · rw [if_neg hf, beq_eq_false_iff_ne.2 hfield]

/-- A stage that keeps the rows of the heading keeps its fields. -/
theorem fields_zipIdx_map {t : Table} {f : PlacedRow → Row}
    (hsource : ∀ p ∈ t.zipIdx, (f p).source = p.1.source ∧ (f p).raw = p.1.raw)
    (hdraft : ∀ p ∈ t.zipIdx, p.1.source = .header → (f p).draftText = p.1.draftText) :
    Table.fields (t.zipIdx.map f) = t.fields := by
  have hplaced : ∀ ps : List PlacedRow, (∀ p ∈ ps, p ∈ t.zipIdx) →
      Table.fields (ps.map f) = Table.fields (ps.map (·.1)) := by
    intro ps hps
    induction ps with
    | nil => rfl
    | cons p ps ih =>
        obtain ⟨hp, hps⟩ := List.forall_mem_cons.1 hps
        rw [List.map_cons, List.map_cons, fields_cons, fields_cons, ih hps, (hsource p hp).1,
          (hsource p hp).2]
        split
        · next hheader => rw [hdraft p hp hheader]
        · rfl
  have hall := hplaced t.zipIdx fun p hp => hp
  rwa [List.zipIdx_map_fst] at hall

theorem fields_withHeading (title : String) {t : Table} (h : ∀ r ∈ t, r.source ≠ .header) :
    (t.withHeading title).fields = headingFields title := by
  have hnone : t.filter (fun r => decide (r.source = .header)) = [] :=
    List.filter_eq_nil_iff.2 fun r hr => by simpa using h r hr
  unfold Table.fields Table.withHeading
  rw [List.filter_append, hnone, List.append_nil]
  rfl

theorem field?_cons (r : Row) (t : Table) (name : String) :
    Table.field? (r :: t) name
      = if r.source = .header ∧ r.raw = name then some r.text else t.field? name := by
  unfold Table.field?
  rw [List.find?_cons]
  by_cases h : r.source = .header ∧ r.raw = name
  · rw [decide_eq_true h, if_pos h]
    rfl
  · rw [decide_eq_false h, if_neg h]

/-- A heading that has drafts only. -/
def Table.Drafted (t : Table) : Prop :=
  ∀ r ∈ t, r.source = .header → r.finalText = none

theorem Table.Drafted.of_unmarked {t t' : Table} (h : t.Drafted)
    (hmap : t'.map Row.unmarked = t.map Row.unmarked) : t'.Drafted := by
  intro r hr hsource
  have hmem : r.unmarked ∈ t.map Row.unmarked := hmap ▸ List.mem_map_of_mem hr
  obtain ⟨q, hq, heq⟩ := List.mem_map.1 hmem
  have hkeeps : ∀ {β : Type} (g : Row → β), g q.unmarked = g r.unmarked := fun g => congrArg g heq
  have hfinal : q.finalText = r.finalText := hkeeps Row.finalText
  rw [← hfinal]
  exact h q hq ((hkeeps Row.source).trans hsource)

/-- Before the final texts come, the heading shows its drafts. -/
theorem Table.Drafted.field? {t : Table} (h : t.Drafted) (name : String) :
    t.field? name = t.fields.lookup name := by
  induction t with
  | nil => rfl
  | cons r t ih =>
      obtain ⟨hr, ht⟩ := List.forall_mem_cons.1 h
      rw [field?_cons, fields_cons, ih ht]
      by_cases hheader : r.source = .header
      · have htext : r.text = r.draftText.getD "" := by
          unfold Row.text
          rw [hr hheader]
        rw [if_pos hheader, List.lookup_cons, htext]
        by_cases hname : r.raw = name
        · rw [if_pos ⟨hheader, hname⟩, hname, beq_self_eq_true]
        · rw [if_neg fun h => hname h.2, beq_eq_false_iff_ne.2 (Ne.symm hname)]
      · rw [if_neg fun h => hheader h.1, if_neg hheader]

/-- Only the heading has fields to set. -/
theorem mem_of_mem_setField {name value : String} {t : Table} {r : Row}
    (h : r ∈ t.setField name value) (hr : r.source ≠ .header) : r ∈ t := by
  obtain ⟨q, hq, rfl⟩ := List.mem_map.1 h
  split at hr
  · next hheader => exact absurd hheader.1 hr
  · next hheader =>
    rw [if_neg hheader]
    exact hq

end LyricScore
