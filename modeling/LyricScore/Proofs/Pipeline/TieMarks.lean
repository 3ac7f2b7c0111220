/-
Where tie marks stand. A hold writes its mark in front of its own note, and the mark is then moved
back over spaces, barlines, fields and the end of a line to the note that the hold goes on with.
Three facts about a run make that work: a hold has the pitch of the row before it, what stands
between the two is a gap, and nothing else in a line has a stroke in it. For the last one the meters
matter, whose beats are counted and might come out below zero.

# Where a mark stays

A mark moves to the line before only if no more than fields open its line, and if that line ends
with a note. So a mark stays at the opening of a line behind a barline, and behind a line that has
no notes.
-/
import LyricScore.Proofs.Pipeline.Progress
import LyricScore.Proofs.Table.Sustain
import LyricScore.Proofs.Tune.Agreement
import LyricScore.Proofs.Tune.Playable

namespace LyricScore

open Text

-- ============================================================= meters

theorem ink_meterText {beats : Int} (h : 0 ≤ beats) (denominator : Int) :
    ∀ c ∈ (meterText beats denominator).toList, isInk c = true := by
  obtain ⟨digit, hdigit, htext⟩ := toList_meterText beats denominator
  rw [htext]
  refine List.forall_mem_append.2 ⟨fun c hc => (ink_decimal h hc).1, ?_⟩
  simp only [List.mem_cons, List.not_mem_nil, or_false] at hdigit
  rcases hdigit with rfl | rfl
  all_goals exact forall_mem_of_all (by decide)

theorem Row.MeterInked.of_none {r : Row} (h : r.meter = none) : r.MeterInked := by
  unfold Row.MeterInked Row.effectiveMeter
  rw [h]
  exact forall_mem_of_all (by decide)

/-- A stage behind the layout writes no meter below zero. -/
theorem Stage.run_meterInked {s : Score} (hs : s.WellFormed) {stage : Stage} {c c' : Context}
    {t t' : Table} (h : stage.run c t = .ok (c', t')) (hlayout : stage ≠ .layout) (ht : t.Renders s)
    (hinked : ∀ r ∈ t, r.MeterInked) : ∀ r ∈ t', r.MeterInked := by
  by_cases hheading : stage = .heading
  · subst hheading
    cases Stage.run_eq_ok_iff.1 h
    refine List.forall_mem_append.2 ⟨fun r hr => ?_, hinked⟩
    obtain ⟨field, -, rfl⟩ := List.mem_map.1 hr
    exact .of_none rfl
  intro r' hr'
  by_cases hmeters : stage = .meters
  · subst hmeters
    cases Stage.run_eq_ok_iff.1 h
    exact meter_of_mem_withMetersText (P := fun meter => ∀ c ∈ meter.toList, isInk c = true) hinked
      (fun m hm => ink_meterText (ht.exists_load hs hm).1 _) hr'
  · obtain ⟨r, hr, hcarried⟩ := exists_of_forall₂ (Stage.run_carries h hlayout hheading) hr'
    have hmeter : r'.effectiveMeter = r.effectiveMeter := by
      unfold Row.effectiveMeter
      rw [hcarried.meter hmeters]
    unfold Row.MeterInked
    rw [hmeter]
    exact hinked r hr

theorem Completes.meterInked {s : Score} (hs : s.WellFormed) {c c' : Context} {t t' : Table}
    {stages : List Stage} (h : Completes c t stages c' t') (hlayout : .layout ∉ stages)
    (ht : t.Renders s) (hinked : ∀ r ∈ t, r.MeterInked) : ∀ r ∈ t', r.MeterInked := by
  induction h with
  | done => exact hinked
  | step hstage _ ih =>
      refine ih (fun hmem => hlayout (List.mem_cons_of_mem _ hmem))
        (Stage.run_renders_of_renders hstage ?_ ht) (Stage.run_meterInked hs hstage ?_ ht hinked)
      all_goals exact fun heq => hlayout (heq ▸ List.mem_cons_self)

/-- Every meter of a run is written with ink. -/
theorem meterInked_of_run {text : String} {o : Options} {result : Result}
    (h : run (.text text) o = .ok result) : ∀ r ∈ result.table, r.MeterInked := by
  obtain ⟨s, c, hparse, hcompletes, -⟩ := completes_of_run h
  have hs := Reader.wellFormed_of_parse hparse
  rcases hcompletes.from_layout with hnil | ⟨next, rest, hrest, hcompletes⟩
  · rw [hnil]
    exact fun r hr => absurd hr List.not_mem_nil
  · exact hcompletes.meterInked hs hrest (Score.layout_renders hs)
      fun r hr => .of_none (sound_of_mem_layout hs hr).2.1

-- ============================================================== holds

/-- A row that goes on with the one before it, if that has a pitch. -/
def Row.Resumes (previous : Option Row) (r : Row) : Prop :=
  previous.any Row.hasPitch = true → r.Continues previous

/-- Behind the underlay a hold has the pitch of the row before it. -/
theorem Table.Laid.linked_resumes {v : Table} (hlaid : v.Laid)
    (hletter : ∀ r ∈ v, r.source = .lyric → r.letter = none)
    (htuned : Table.Tuned (v.underlaid.map (·.1))) :
    Linked Row.isRhythm Row.Resumes none (v.underlaid.map (·.1)) := by
  refine linked_iff_rhythmBefore.2 fun p hp _ hpitched hhold pitch hpitch => ?_
  have hsource : p.1.source = .lyric := by
    simp only [Row.isHold, Bool.and_eq_true, beq_iff_eq] at hhold
    exact hhold.1
  obtain ⟨q, hq, hqpitch⟩ := (Option.any_eq_true _ _).1 hpitched
  obtain ⟨hqtone, hqattack⟩ := hlaid.tone?_rhythmBefore hletter htuned hq
  have htone : p.1.tone? = q.tone? := by
    have hheld := ((hlaid.heldBehind hletter hp hsource).1 hhold).tone
    unfold Table.heldTone? at hheld
    rw [show Table.lastRhythm? _ = _ from hq, Option.bind_some] at hheld
    split at hheld
    · exact hheld
    · exact hheld.trans (hqattack hqpitch).2.symm
  rw [hqpitch] at hqtone
  obtain ⟨tone, hqtone⟩ := Option.isSome_iff_exists.1 hqtone.symm
  obtain ⟨hletters, -, hoctaves⟩ := Row.sameTone_of_tone? hqtone (htone.trans hqtone)
  rw [hq, Option.bind_some, ← hpitch]
  unfold Row.pitch?
  rw [hletters, hoctaves]

theorem Row.hasPitch_of_pitch? {r : Row} {pitch : Letter × Int} (h : r.pitch? = some pitch) :
    r.hasPitch = true := by
  unfold Row.pitch? at h
  unfold Row.hasPitch
  split at h
  · next hletter hoctave =>
    rw [hletter, hoctave]
    rfl
  · cases h

theorem Row.resumes_sung (previous : Option Row) (r : Row) :
    Row.Resumes (previous.map Row.sung) r.sung ↔ Row.Resumes previous r := by
  cases previous <;> exact Iff.rfl

/-- In a run whose holds go on with rows that have a pitch, they go on with that pitch. -/
theorem Score.linked_continues {text : String} {s : Score} (hparse : Score.parse text = .ok s)
    {v : Table} (hv : s.layout.voiced = .ok v) {title : String} {ds : List Declaration}
    (hsustains :
      Linked Row.isRhythm Row.Sustains none (Table.engraved (v.underlaid.map (·.1)) title ds)) :
    Linked Row.isRhythm Row.Continues none (Table.engraved (v.underlaid.map (·.1)) title ds) := by
  obtain ⟨v', hv', hlaid, hletter⟩ := exists_voiced_of_parse hparse
  obtain rfl : v' = v := Except.ok.inj (hv'.symm.trans hv)
  have hlines := hlaid.linked_resumes hletter (underlaid_spec hv).2.1
  have hresumes := linked_of_sung Row.resumes_sung
    (map_sung_of_unmarked (map_unmarked_engraved _ title ds)) (linked_withHeading title hlines)
  refine (hresumes.and hsustains).imp fun previous r _ _ hboth hhold pitch hpitch => ?_
  refine hboth.1 (hboth.2 hhold ?_) hhold pitch hpitch
  exact Row.hasPitch_of_pitch? hpitch

-- =============================================================== marks

/-- Tie marks are well placed. For every text that runs to its end, with ties folded or not, whose
holds with a pitch each go on with a row that has one: the lines behind the heading are the music
lines, and each tie mark in them is between two notes of one pitch, with nothing but barlines,
fields, the opening of a tuplet and line ends in between. It stands right behind the first of them,
unless it opens its line, where the line before has no notes or a barline is before the mark. -/
theorem tiesNotes_of_run {text : String} {title : Option String} {fold : Bool} {result : Result}
    (h : run (.text text) { title := title, fold := fold } = .ok result)
    (hsustained : result.table.Sustained) :
    result.tune = "\n".intercalate (result.table.headingLines ++ result.table.musicLines)
      ∧ ∀ before line after pre post, result.table.musicLines = before ++ line :: after →
        line.toList = pre ++ '-' :: post → TiesNotes before pre post after := by
  obtain ⟨s, v, heading, ds, folding, hparse, hv, hds, hties, htune⟩ := engraved_of_run h
  obtain ⟨unit, key, hscored⟩ := Score.scored (one_le_duration_of_parse hparse) hv hds
  obtain ⟨texts, folding', hfold, hset, hwrites⟩ := hscored.withTies_writes fold
  obtain ⟨htable, -⟩ := Prod.mk.inj (Except.ok.inj (hties.symm.trans hfold))
  have hmeters := meterInked_of_run h
  rw [htable] at hsustained hmeters
  refine ⟨htune, fun before line after pre post hlines hline => ?_⟩
  rw [htable] at hlines
  refine (hscored.playable hset hwrites (fun r hr => ?_) ?_).tiesNotes hlines hline
  · obtain ⟨place, hplace⟩ := List.getElem?_of_mem hr
    have hmem : (r, place) ∈ List.zipIdx _ := List.mem_zipIdx_iff_getElem?.2 hplace
    have hinked := hmeters _ (List.mem_map.2 ⟨_, hmem, rfl⟩)
    exact hinked
  · refine Score.linked_continues hparse hv ?_
    refine linked_of_textless Row.sustains_textless (map_textless_withTexts _ texts).symm ?_
    exact linked_iff_rhythmBefore.2 fun p hp _ => hsustained p hp

/-- A note that is held over the end of a line, where the key, the unit and the meter change. -/
def carriedText : String :=
  "la la |\nc d\n\n[8] -.-.- | - la\nK#1 e"

/-- The run of the carried note, with its lines. -/
def carriedRun : {result // run (.text carriedText) { title := none, fold := true } = .ok result
    ∧ result.table.Sustained
    ∧ result.table.musicLines = ["C D-|", "[K:G major] [L:1/8] [M:3/8] D3-| [M:2/8] D E"]} :=
  checked (by decide +kernel)

theorem tiesNotes_of_run_carriedText :
    ∃ result after, run (.text carriedText) { title := none, fold := true } = .ok result
      ∧ result.table.Sustained ∧ result.table.musicLines = "C D-|" :: after
      ∧ TiesNotes [] ['C', ' ', 'D'] ['|'] after := by
  obtain ⟨result, hrun, hsustained, hlines⟩ := carriedRun
  exact ⟨result, _, hrun, hsustained, hlines,
    (tiesNotes_of_run hrun hsustained).2 [] _ _ _ _ hlines rfl⟩

/-- A block of nothing but a barline between a note and its hold. -/
def barredText : String :=
  "la\nc\n\n|\nd\n\n-\ne"

/-- The run of the note and its hold, with their lines. -/
def barredRun : {result // run (.text barredText) { title := none, fold := true } = .ok result
    ∧ result.table.Sustained ∧ result.table.musicLines = ["C", "|", "-C"]} :=
  checked (by decide +kernel)

/-- A mark stays at the opening of its line behind a line without notes. -/
theorem tieMark_opens_line :
    ∃ result before line after pre post,
      run (.text barredText) { title := none, fold := true } = .ok result ∧ result.table.Sustained
        ∧ result.table.musicLines = before ++ line :: after ∧ line.toList = pre ++ '-' :: post
        ∧ ¬ ∃ pitch, EndsOn pitch pre := by
  obtain ⟨result, hrun, hsustained, hlines⟩ := barredRun
  refine ⟨result, ["C", "|"], "-C", [], [], ['C'], hrun, hsustained, hlines, rfl, ?_⟩
  rintro ⟨pitch, ts, a, q, hread, -⟩
  rw [tokens_nil] at hread
  exact absurd (Option.some.inj hread).symm (by simp)

end LyricScore
