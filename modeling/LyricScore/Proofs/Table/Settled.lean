/-
Steps taken twice. Voicing, underlay, units, notes and ties each write into columns of the table
that the step itself does not read, or reads only on rows that it leaves as they are. So a step that
is taken once more finds all that it looks at as it was, and writes what is there already. This holds
of every table, whatever its columns held before.

# Looking at a step's own result

For each step there is one fact about what it reads: the blocks that go on with a held note show in
rows without their tones (`opensWithHold_of_untoned`), the tones that are offered stand on rows that
the underlay does not touch (`Underlay.tones_run`), the unit marks show in the outline
(`declarations_of_outline`), the texts of a beat do not depend on texts (`BeatGroup.Noted`), and ties
fold by the notes alone (`Table.folding_map`). What it then writes is compared row by row.
-/
import LyricScore.Proofs.Table.SameNotes
import LyricScore.Proofs.Table.Scored
import LyricScore.Proofs.Table.Underlay
import LyricScore.Proofs.Table.Units
import LyricScore.Proofs.Table.Voicing

namespace LyricScore

theorem Table.opensWithHold_of_untoned {t t' : Table} (h : t'.map Row.untoned = t.map Row.untoned) :
    t'.opensWithHold = t.opensWithHold := by
  rw [← Table.opensWithHold_untoned t', h, Table.opensWithHold_untoned]

/-- A table all of whose rows stay as they are. -/
theorem zipIdx_map_eq_self {t : Table} {f : PlacedRow → Row} (h : ∀ p ∈ t.zipIdx, f p = p.1) :
    t.zipIdx.map f = t := by
  rw [List.map_congr_left h, List.zipIdx_map_fst]

-- =========================================================== voicing

/-- How voicing goes on behind a row with a letter. -/
theorem resolve_of_letter {continues : Int → Bool} {block : Option Int} {v : Voice} {r : Row}
    {letter : Letter} {rows out : List Row} (hsource : r.source = .pitch)
    (hletter : r.letter = some letter.name)
    (hrest : Voicing.resolve continues (if Voicing.enters block r then some r.block else block)
      ((Voicing.start continues block v r).move letter r.shift) rows = .ok out) :
    Voicing.resolve continues block v (r :: rows)
      = .ok ({ r with octave := some ((Voicing.start continues block v r).move letter r.shift).octave }
          :: out) := by
  have hknown : Letter.ofName letter.name = .ok letter := by cases letter <;> rfl
  rw [Voicing.resolve, sungLetter?_eq_some.2 ⟨hsource, hletter⟩]
  simp only [hknown, hrest]

/-- Rows that have been voiced keep their octaves: the voice moves by letters and shifts only. -/
theorem resolve_resolve {continues : Int → Bool} {block : Option Int} {v : Voice}
    {rows out : List Row} (h : Voicing.resolve continues block v rows = .ok out) :
    Voicing.resolve continues block v out = .ok out := by
  induction rows generalizing block v out with
  | nil =>
      obtain rfl := Except.ok.inj h
      rfl
  | cons r rows ih =>
      obtain ⟨r', rest, next, rfl, hrest, hr'⟩ := resolve_cons h
      have hagain := ih hrest
      rcases hr' with ⟨hnone, rfl, rfl⟩ | ⟨letter, hsource, hletter, rfl, rfl⟩
      · simp only [Voicing.resolve, hnone, hagain]
      · exact @resolve_of_letter continues block v { r with octave := _ } letter rest rest
          hsource hletter hagain

theorem Table.voiced_voiced {t t' : Table} (h : t.voiced = .ok t') : t'.voiced = .ok t' := by
  unfold Table.voiced at h ⊢
  rw [Table.opensWithHold_of_untoned (resolve_spec h).1]
  exact resolve_resolve h

-- ========================================================== underlay

namespace Underlay

variable (continues : Int → Bool) (tones : Int → List Tone)

theorem untoned_outcome (s : State) (r : Row) :
    (outcome continues tones s r).1.untoned = r.untoned := by
  unfold outcome
  split
  · exact untoned_step tones _ r
  · rfl

/-- The state behind a row, whatever the row was given. -/
theorem state_step (s : State) (r : Row) :
    (step tones s r).1
      = if r.isAttack then
          { s with
            sounding := (tones r.block)[s.attacks.count r.block]?
            lastAttack := (tones r.block)[s.attacks.count r.block]?
            attacks := r.block :: s.attacks }
        else if r.isHold then s
        else if r.kind = .rest then { s with sounding := none }
        else s := by
  unfold step
  split
  · dsimp only
    cases (tones r.block)[s.attacks.count r.block]? <;> rfl
  split
  · split <;> rfl
  split <;> rfl

/-- The walk does not look at the tones that rows have. -/
theorem advance_untoned (s : State) (r : Row) :
    advance continues tones s r.untoned = advance continues tones s r := by
  unfold advance
  rw [state_step, state_step]
  rfl

theorem advance_outcome (s : State) (r : Row) :
    advance continues tones s (outcome continues tones s r).1 = advance continues tones s r := by
  rw [← advance_untoned, untoned_outcome, advance_untoned]

/-- A row that has its tone gets the same tone once more. -/
theorem outcome_outcome (s : State) (r : Row) :
    outcome continues tones s (outcome continues tones s r).1 = outcome continues tones s r := by
  by_cases hattack : r.isAttack = true
  · cases htone : (tones r.block)[s.attacks.count r.block]? with
    | none =>
        have hsilent := @outcome_of_attack continues tones s r hattack none htone
        rw [hsilent]
        exact hsilent
    | some tone =>
        rw [outcome_of_attack hattack htone]
        exact @outcome_of_attack continues tones s (r.withTone tone) hattack (some tone) htone
  by_cases hhold : r.isHold = true
  · cases htone : (s.enter continues r).sounding with
    | none =>
        have hunheld := @outcome_of_hold continues tones s r hhold none htone
        rw [hunheld]
        exact hunheld
    | some tone =>
        rw [outcome_of_hold hhold htone]
        exact @outcome_of_hold continues tones s (r.withTone tone) hhold (some tone) htone
  have hother := @outcome_of_other continues tones s r (Bool.eq_false_iff.2 hattack)
    (Bool.eq_false_iff.2 hhold)
  rw [hother]
  exact hother

theorem run_run (s : State) (rows : List Row) :
    run continues tones s ((run continues tones s rows).map (·.1)) = run continues tones s rows := by
  induction rows generalizing s with
  | nil => rfl
  | cons r rows ih =>
      rw [run_cons, List.map_cons, run_cons, outcome_outcome, advance_outcome, ih]

theorem map_untoned_run (s : State) (rows : List Row) :
    ((run continues tones s rows).map (·.1)).map Row.untoned = rows.map Row.untoned := by
  induction rows generalizing s with
  | nil => rfl
  | cons r rows ih => rw [run_cons, List.map_cons, List.map_cons, List.map_cons, ih, untoned_outcome]

/-- Rows that offer a tone are none of those that get one. -/
theorem offeredTone?_outcome (s : State) (r : Row) :
    (outcome continues tones s r).1.offeredTone? = r.offeredTone? := by
  by_cases hsource : r.source = .lyric
  · have hsame : (outcome continues tones s r).1.source = .lyric := by
      have hkept := congrArg Row.source (untoned_outcome continues tones s r)
      exact hkept.trans hsource
    simp [Row.offeredTone?, hsource, hsame]
  · rw [outcome, if_neg hsource]

theorem tones_run (s : State) (rows : List Row) (block : Int) :
    Table.tones ((run continues tones s rows).map (·.1)) block = Table.tones rows block := by
  unfold Table.tones
  induction rows generalizing s with
  | nil => rfl
  | cons r rows ih =>
      rw [run_cons, List.map_cons, List.filterMap_cons, List.filterMap_cons, ih, block_outcome,
        offeredTone?_outcome]

end Underlay

theorem Table.underlaid_underlaid (t : Table) :
    Table.underlaid (t.underlaid.map (·.1)) = t.underlaid := by
  have hopens : Table.opensWithHold (t.underlaid.map (·.1)) = t.opensWithHold :=
    Table.opensWithHold_of_untoned (Underlay.map_untoned_run _ _ _ _)
  have htones : Table.tones (t.underlaid.map (·.1)) = t.tones :=
    funext (Underlay.tones_run _ _ _ _)
  unfold Table.underlaid at hopens htones ⊢
  rw [hopens, htones, Underlay.run_run]

-- ============================================================= units

namespace Units

theorem firstRhythm?_outline (block : Int) (index : Nat) (rows : List Row) :
    firstRhythm? block index (rows.map Row.outline) = firstRhythm? block index rows := by
  induction rows generalizing index with
  | nil => rfl
  | cons r rows ih =>
      simp only [List.map_cons, firstRhythm?, ih]
      rfl

theorem declarations_outline (t : Table) (block : Option Int) (start : Nat) (rows : List PlacedRow) :
    declarations (t.map Row.outline) block start (rows.map fun p => (p.1.outline, p.2))
      = declarations t block start rows := by
  induction rows generalizing block start with
  | nil => rfl
  | cons p rows ih =>
      simp only [List.map_cons, declarations, ih, ← List.map_drop, firstRhythm?_outline]
      rfl

/-- A row that has its unit gets the same unit once more. -/
theorem spreadRow_spreadRow (ds : List Declaration) (unit : Rat) (index : Nat) (r : Row) :
    spreadRow ds unit index (spreadRow ds unit index r) = spreadRow ds unit index r := by
  have hdeclared : ∀ d more : Option Rat, d.or (d.or more) = d.or more := fun d more => by
    cases d <;> rfl
  have hunit : ∀ here later : Option Rat,
      (if r.isRhythm then here else if r.isRhythm then here else later)
        = if r.isRhythm then here else later := fun here later => by
    split <;> rfl
  have hdeclared := hdeclared (declaredAt? ds index) r.declared
  have hunit := hunit (some ((declaredAt? ds index).getD unit)) r.unit
  exact congrArg₂ (fun declared unit => { r with declared := declared, unit := unit })
    hdeclared hunit

theorem spread_spread (ds : List Declaration) (unit : Rat) (t : Table) (index : Nat) :
    spread ds unit ((spread ds unit (t.zipIdx index)).zipIdx index)
      = spread ds unit (t.zipIdx index) := by
  induction t generalizing unit index with
  | nil => rfl
  | cons r t ih =>
      rw [List.zipIdx_cons, spread_cons_eq, List.zipIdx_cons, spread_cons_eq, spreadRow_spreadRow, ih]

/-- The heading has no part in the spreading of units. -/
theorem spread_setField (ds : List Declaration) (unit : Rat) (name value : String) (t : Table)
    (index : Nat) :
    spread ds unit ((t.setField name value).zipIdx index)
      = Table.setField name value (spread ds unit (t.zipIdx index)) := by
  induction t generalizing unit index with
  | nil => rfl
  | cons r t ih =>
      have hrest := ih ((declaredAt? ds index).getD unit) (index + 1)
      unfold Table.setField at hrest ⊢
      rw [List.map_cons, List.zipIdx_cons, List.zipIdx_cons, spread_cons_eq, spread_cons_eq,
        List.map_cons, hrest]
      congr 1
      by_cases hfield : r.source = .header ∧ r.raw = name
      · rw [if_pos hfield]
        exact (if_pos hfield).symm
      · rw [if_neg hfield]
        exact (if_neg hfield).symm

theorem headingUnit_setField (ds : List Declaration) (name value : String) (rows : List Row) :
    headingUnit ds (Table.setField name value rows) = headingUnit ds rows := by
  have hrhythm : (Row.isRhythm ∘ fun r : Row =>
      if r.source = .header ∧ r.raw = name then { r with draftText := some value } else r)
        = Row.isRhythm := funext fun r => by
    rw [Function.comp_apply]
    split <;> rfl
  unfold headingUnit Table.setField
  rw [List.find?_map, hrhythm]
  cases rows.find? Row.isRhythm with
  | none => rfl
  | some r =>
      rw [Option.map_some]
      dsimp only
      split <;> rfl

end Units

theorem Table.setField_setField (name value : String) (t : Table) :
    (t.setField name value).setField name value = t.setField name value := by
  unfold Table.setField
  rw [List.map_map]
  refine List.map_congr_left fun r _ => ?_
  by_cases hfield : r.source = .header ∧ r.raw = name
  · rw [Function.comp_apply, if_pos hfield]
    exact if_pos hfield
  · rw [Function.comp_apply, if_neg hfield, if_neg hfield]

theorem Table.declarations_of_outline {t t' : Table} (h : t'.map Row.outline = t.map Row.outline) :
    t'.declarations = t.declarations := by
  have hplaces : ∀ t : Table, Table.declarations (t.map Row.outline) = t.declarations := fun t => by
    unfold Table.declarations
    rw [List.zipIdx_map]
    exact Units.declarations_outline t none 0 t.zipIdx
  rw [← hplaces t', h, hplaces]

theorem Table.withUnits_withUnits {t t' : Table} (h : t.withUnits = .ok t') :
    t'.withUnits = .ok t' := by
  obtain ⟨ds, hds, rfl⟩ := map_eq_ok.1 h
  have houtline := map_outline_of_sung (map_sung_of_unmarked (map_unmarked_withUnitsOf t ds))
  have hsettled : (t.withUnitsOf ds).withUnitsOf ds = t.withUnitsOf ds := by
    unfold Table.withUnitsOf
    dsimp only
    rw [Units.spread_setField, Units.spread_spread, Units.headingUnit_setField, Table.setField_setField]
  unfold Table.withUnits
  rw [Table.declarations_of_outline houtline, hds]
  exact congrArg Except.ok hsettled

-- ============================================================= notes

/-- A row of a beat that has its texts gets the same texts once more. -/
theorem BeatGroup.Noted.encodeRow_eq {g : BeatGroup} (h : g.Noted)
    (hplaces : g.members.Pairwise fun p q => p.2 < q.2) {p : PlacedRow} (hp : p ∈ g.members) :
    g.encodeRow p = p.1 := by
  have hdraft : p.1.draftText = some (if p.2 = g.first.2 then g.fragment else "") := by
    rcases List.mem_cons.1 hp with rfl | hother
    · rw [if_pos rfl]
      exact h.first
    · have hlt := (List.pairwise_cons.1 hplaces).1 p hother
      rw [if_neg (Nat.ne_of_gt hlt)]
      exact h.others p hother
  unfold BeatGroup.encodeRow
  rw [← h.note p hp, ← hdraft]

/-- A row that finds its beat is one of its rows. -/
theorem Table.mem_members_of_beatOf? {t : Table} {p : PlacedRow} {g : BeatGroup} (hp : p ∈ t.zipIdx)
    (h : Table.beatOf? t.beats p.1 = some g) : g ∈ t.beats ∧ p ∈ g.members := by
  obtain ⟨key, hkey, hfind⟩ := Option.bind_eq_some_iff.1 h
  have hg := List.mem_of_find?_eq_some hfind
  have hsame := List.find?_some hfind
  rw [decide_eq_true_eq] at hsame
  refine ⟨hg, ?_⟩
  rw [mem_beats hg, List.mem_filter, hsame]
  exact ⟨hp, decide_eq_true hkey⟩

theorem Table.withNotesText_withNotesText (t : Table) :
    t.withNotesText.withNotesText = t.withNotesText := by
  rw [withNotesText_eq t.withNotesText]
  refine zipIdx_map_eq_self fun p hp => ?_
  unfold Table.encoded
  split
  · rfl
  · next g hbeat =>
    obtain ⟨hg, hmem⟩ := Table.mem_members_of_beatOf? hp hbeat
    exact (noted_of_mem_beats hg).encodeRow_eq (Table.pairwise_members hg) hmem

theorem Table.withNotes_withNotes {t t' : Table} (h : t.withNotes = .ok t') :
    t'.withNotes = .ok t' := by
  unfold Table.withNotes at h
  split at h
  · next hfits =>
    obtain rfl := Except.ok.inj h
    have hkeys : ∀ p ∈ t.zipIdx, (t.encoded p).beatKey? = p.1.beatKey? := fun p _ => by
      have hkey := congrArg Row.beatKey? (encoded_spec t p).1
      exact hkey
    have hlengths : (t.withNotesText.beats.all fun g => lengthFits g.length) = true := by
      rw [withNotesText_eq, beats_zipIdx_map hkeys, List.all_map]
      refine List.all_eq_true.2 fun g hg => ?_
      obtain ⟨-, -, -, hlength, -⟩ := BeatGroup.mapRows_spec fun p (_ : p ∈ g.members) =>
        (encoded_spec t p).1
      rw [Function.comp_apply, hlength]
      exact List.all_eq_true.1 hfits g hg
    rw [Table.withNotes, if_pos hlengths, Table.withNotesText_withNotesText]
  · cases h

-- ============================================================== ties

/-- A row without its final text. -/
def Row.unfinished (r : Row) : Row :=
  { r with finalText := none }

theorem Row.sameNotes_unfinished (r : Row) : r.SameNotes r.unfinished :=
  ⟨rfl, rfl, rfl, rfl, rfl, rfl, rfl, rfl, rfl, rfl, fun _ _ => rfl, rfl⟩

theorem Table.folding_withTexts (t : Table) (texts : List (Nat × String)) :
    (t.withTexts texts).folding = t.folding := by
  have hrows : (t.withTexts texts).map Row.unfinished = t.map Row.unfinished :=
    map_zipIdx_map fun _ _ => rfl
  rw [← Table.folding_map Row.sameNotes_unfinished, hrows,
    Table.folding_map Row.sameNotes_unfinished]

theorem Table.withTexts_withTexts (t : Table) (texts : List (Nat × String)) :
    (t.withTexts texts).withTexts texts = t.withTexts texts := by
  unfold Table.withTexts
  rw [zipIdx_zipIdx_map, List.map_map]
  rfl

theorem Table.withTies_withTies {t t' : Table} {fold : Bool} {f : Folding}
    (h : t.withTies fold = .ok (t', f)) : t'.withTies fold = .ok (t', f) := by
  cases fold with
  | true =>
      obtain ⟨f, hfolding, heq⟩ := map_eq_ok.1 h
      obtain ⟨rfl, rfl⟩ := Prod.mk.inj heq
      unfold Table.withTies
      rw [if_pos rfl, Table.folding_withTexts, hfolding]
      show Except.ok ((t.withTexts f.texts).withTexts f.texts, f) = _
      rw [Table.withTexts_withTexts]
  | false =>
      obtain ⟨rfl, rfl⟩ := Prod.mk.inj (Except.ok.inj h)
      unfold Table.withTies
      rw [if_neg Bool.false_ne_true, Table.withTexts_withTexts]

-- ============================================================= steps

/-- A step taken once more leaves its result as it is, on every table on which it succeeds: voicing,
underlay, units, notes, and ties with or without folding. The underlay always succeeds, and rows also
meet the fates that they met; ties are folded once more in the same way. -/
theorem Table.steps_settle (t : Table) :
    (∀ t', t.voiced = .ok t' → t'.voiced = .ok t')
      ∧ Table.underlaid (t.underlaid.map (·.1)) = t.underlaid
      ∧ (∀ t', t.withUnits = .ok t' → t'.withUnits = .ok t')
      ∧ (∀ t', t.withNotes = .ok t' → t'.withNotes = .ok t')
      ∧ ∀ fold t' f, t.withTies fold = .ok (t', f) → t'.withTies fold = .ok (t', f) :=
  ⟨fun _ h => Table.voiced_voiced h, t.underlaid_underlaid, fun _ h => Table.withUnits_withUnits h,
    fun _ h => Table.withNotes_withNotes h, fun _ _ _ h => Table.withTies_withTies h⟩

/-- A note over two beats behind a unit mark, in a table whose columns say something else. -/
def staleTable : Table :=
  let row (kind : Kind) (beat : Int) : Row :=
    { source := .lyric, block := 1, kind := kind, measure := some 1, beat := some beat,
      letter := some "g", octave := some 9, unit := some (1 / 2), declared := some (1 / 2),
      noteText := some "?", draftText := some "?", finalText := some "?" }
  [{ source := .header, block := 0, kind := .heading, raw := "L", draftText := some "?" },
   { source := .lyric, block := 1, kind := .unit, raw := "[8]" },
   row .syllable 1,
   row .tie 2,
   { source := .pitch, block := 1, kind := .pitch, letter := some "c", octave := some 9 }]

theorem Table.steps_settle_staleTable :
    (∃ t', staleTable.voiced = .ok t' ∧ t' ≠ staleTable ∧ t'.voiced = .ok t')
      ∧ (∃ t' : Table, staleTable.underlaid.map (·.1) = t' ∧ t' ≠ staleTable
          ∧ t'.underlaid.map (·.1) = t')
      ∧ (∃ t', staleTable.withUnits = .ok t' ∧ t' ≠ staleTable ∧ t'.withUnits = .ok t')
      ∧ (∃ t', staleTable.withNotes = .ok t' ∧ t' ≠ staleTable ∧ t'.withNotes = .ok t')
      ∧ ∀ fold, ∃ t' f, staleTable.withTies fold = .ok (t', f) ∧ t' ≠ staleTable
          ∧ t'.withTies fold = .ok (t', f) := by
  obtain ⟨hvoiced, hunderlaid, hunits, hnotes, hties⟩ := staleTable.steps_settle
  have hsettles : ∀ {step : Table → Except Error Table},
      (∀ t', step staleTable = .ok t' → step t' = .ok t') →
      (step staleTable).toOption.any (fun t' => decide (t' ≠ staleTable)) = true →
      ∃ t', step staleTable = .ok t' ∧ t' ≠ staleTable ∧ step t' = .ok t' := by
    intro step hstep hany
    obtain ⟨t', hok, hne⟩ := checked hany
    exact ⟨t', hok, hne, hstep t' hok⟩
  refine ⟨hsettles hvoiced (by decide +kernel),
    ⟨_, rfl, by decide +kernel, congrArg (List.map (·.1)) hunderlaid⟩,
    hsettles hunits (by decide +kernel), hsettles hnotes (by decide +kernel), fun fold => ?_⟩
  have hany : (staleTable.withTies fold).toOption.any (fun p => decide (p.1 ≠ staleTable)) = true := by
    cases fold <;> decide +kernel
  obtain ⟨⟨t', f⟩, hok, hne⟩ := checked hany
  exact ⟨t', f, hok, hne, hties fold t' f hok⟩

end LyricScore
