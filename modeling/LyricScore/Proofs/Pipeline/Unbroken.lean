/-
Tables without line ends. A table on its way through the stages holds no line end but the line feed,
which is escaped when the table is written. The words of a score have no blanks in them, and its
title is one line. What the stages write is put together from printable characters: numbers,
pitches, keys and the marks around them. Only a title from outside can hold a line end, so that is
the one thing to ask for.
-/
import LyricScore.Proofs.Pipeline.Soundness
import LyricScore.Proofs.Table.Dump
import LyricScore.Proofs.Tune.Folding
import LyricScore.Proofs.Tune.Ink

namespace LyricScore

open Text

-- ============================================================= texts

namespace IsUnbroken

theorem of_graphic {text : String} (h : ∀ c ∈ text.toList, isGraphic c = true) : IsUnbroken text :=
  fun c hc => (not_break_of_isGraphic (h c hc)).2.2

theorem of_all {text : String} (h : text.toList.all isGraphic = true) : IsUnbroken text :=
  of_graphic (List.all_eq_true.1 h)

theorem of_blankless {text : String} (h : ∀ c ∈ text.toList, isBlank c = false) :
    IsUnbroken text := by
  intro c hc hraw
  have hblank := isBlank_of_isLineEnd (isLineEnd_iff.2 (Or.inr hraw))
  rw [h c hc] at hblank
  cases hblank

theorem append {text more : String} (htext : IsUnbroken text) (hmore : IsUnbroken more) :
    IsUnbroken (text ++ more) := by
  unfold IsUnbroken
  rw [String.toList_append]
  exact List.forall_mem_append.2 ⟨htext, hmore⟩

theorem ite {p : Prop} [Decidable p] {text other : String} (htext : IsUnbroken text)
    (hother : IsUnbroken other) : IsUnbroken (if p then text else other) := by
  split
  · exact htext
  · exact hother

theorem join {texts : List String} (h : ∀ text ∈ texts, IsUnbroken text) :
    IsUnbroken (String.join texts) := by
  unfold IsUnbroken
  rw [String.toList_join]
  intro c hc
  obtain ⟨text, htext, hc⟩ := List.mem_flatMap.1 hc
  exact h text htext c hc

theorem intercalate {sep : String} (hsep : IsUnbroken sep) {texts : List String}
    (h : ∀ text ∈ texts, IsUnbroken text) : IsUnbroken (sep.intercalate texts) := by
  unfold IsUnbroken
  rw [String.toList_intercalate]
  intro c hc
  have hjoined : c ∈ joinWith sep.toList (texts.map String.toList) := hc
  rcases mem_joinWith hjoined with hc | ⟨w, hw, hc⟩
  · exact hsep c hc
  · obtain ⟨text, htext, rfl⟩ := List.mem_map.1 hw
    exact h text htext c hc

theorem getD {text : Option String} (h : ∀ value ∈ text, IsUnbroken value) :
    IsUnbroken (text.getD "") := by
  cases text with
  | none => exact of_all rfl
  | some value => exact h value rfl

theorem decimal (n : Int) : IsUnbroken (decimal n) :=
  of_graphic fun _ hc => graphic_decimal hc

theorem unitText (unit : Rat) : IsUnbroken (unitText unit) :=
  ((decimal _).append (of_all (by decide))).append (decimal _)

theorem meterText (beats denominator : Int) : IsUnbroken (meterText beats denominator) :=
  (decimal beats).append (ite (of_all (by decide)) (of_all (by decide)))

theorem lengthText (length : Rat) : IsUnbroken (lengthText length) :=
  ite (of_all (by decide)) (ite ((of_all (by decide)).append (decimal _))
    (ite (decimal _) (((decimal _).append (of_all (by decide))).append (decimal _))))

theorem tupletOpening (count denominator : Int) : IsUnbroken (tupletOpening count denominator) :=
  ite (of_all (by decide))
    ((((of_all (by decide)).append (decimal _)).append (of_all (by decide))).append (decimal _))

theorem tunePitch (letter : Letter) (octave : Int) : IsUnbroken (tunePitch letter.name octave) :=
  of_blankless fun c hc => (isInk_eq_true ((ink_tunePitch letter octave).2 c hc).1).1

theorem mark (a : Accidental) : IsUnbroken a.mark := by
  cases a <;> exact of_all (by decide)

theorem letter (l : Letter) : IsUnbroken l.name := by
  cases l <;> exact of_all (by decide)

theorem bar : IsUnbroken Keys.bar :=
  of_all (by decide)

theorem key {name : String} (h : KnownKey name) : IsUnbroken name := by
  obtain ⟨key, hkey, rfl⟩ := h
  have hall : MajorKey.all.all (fun key => key.name.toList.all isGraphic) = true := by decide
  exact of_all (List.all_eq_true.1 hall key hkey)

end IsUnbroken

/-- A row whose letter is known is written as a note or a rest without a line end. -/
theorem Row.Sound.isUnbroken_encode {r : Row} (h : r.Sound) (length : Rat) {opening : String}
    (hopening : IsUnbroken opening) : IsUnbroken (r.encode length opening) := by
  have hlength := IsUnbroken.lengthText length
  unfold Row.encode
  split
  · exact (hopening.append (.of_all (by decide))).append hlength
  · next hsung =>
    have hpitch : IsUnbroken r.pitchText := by
      unfold Row.pitchText
      cases hletter : r.letter with
      | none => simp [Row.isSilent, Row.hasPitch, hletter] at hsung
      | some name =>
          obtain ⟨l, rfl⟩ := h.letter name hletter
          exact IsUnbroken.tunePitch l _
    split
    · exact (((IsUnbroken.of_all (by decide)).append hopening).append hpitch).append hlength
    · exact ((hopening.append (IsUnbroken.mark _)).append hpitch).append hlength

-- ============================================================== rows

theorem Row.domain_of_text {r : Row} {column : Column} {text : String}
    (h : r.record column = .text text) : column.domain = .text := by
  have hof := r.isOf_record column
  rw [h] at hof
  rcases hof with hnone | hsome
  · cases hnone
  · exact (Option.some.inj hsome).symm

/-- A row stays unbroken if the texts that are written on it are. -/
theorem Row.Keeps.unbroken {r r' : Row} {columns : List Column} (h : r.Keeps columns r')
    (hr : r.record.Unbroken)
    (hnew : ∀ column ∈ columns, column.domain = .text → ∀ text, r'.record column = .text text →
      IsUnbroken text) : r'.record.Unbroken := by
  intro column text htext
  by_cases hcolumn : column ∈ columns
  · exact hnew column hcolumn (Row.domain_of_text htext) text htext
  · exact hr column text ((h column hcolumn).symm.trans htext)

/-- A row with no more than its word, its letter and its draft. -/
theorem Row.unbroken_of_plain {r : Row} (hraw : IsUnbroken r.raw)
    (hletter : ∀ name ∈ r.letter, IsUnbroken name) (hdraft : ∀ text ∈ r.draftText, IsUnbroken text)
    (hplain : r.directive = "" ∧ r.meter = none ∧ r.key = none ∧ r.noteText = none
      ∧ r.finalText = none) : r.record.Unbroken := by
  obtain ⟨hdirective, hmeter, hkey, hnote, hfinal⟩ := hplain
  have hnone : ∀ {value : Option String} {text : String}, value = none →
      Cell.ofText? value = .text text → IsUnbroken text := by
    intro value text hvalue htext
    rw [hvalue] at htext
    cases htext
  intro column text htext
  have hdomain := Row.domain_of_text htext
  cases column with
  | raw => exact Cell.text.inj htext ▸ hraw
  | directive =>
      obtain rfl := Cell.text.inj htext
      rw [hdirective]
      exact .of_all rfl
  | letter => exact hletter text (Cell.ofText?_inj (b := some text) htext)
  | draftText => exact hdraft text (Cell.ofText?_inj (b := some text) htext)
  | meter => exact hnone hmeter htext
  | key => exact hnone hkey htext
  | noteText => exact hnone hnote htext
  | finalText => exact hnone hfinal htext
  | _ => cases hdomain

/-- A row with no more than its word. -/
theorem Row.unbroken_of_word {r : Row} (hraw : IsUnbroken r.raw)
    (hnone : r.letter = none ∧ r.draftText = none)
    (hplain : r.directive = "" ∧ r.meter = none ∧ r.key = none ∧ r.noteText = none
      ∧ r.finalText = none) : r.record.Unbroken := by
  refine Row.unbroken_of_plain hraw (fun name hname => ?_) (fun text htext => ?_) hplain
  · rw [hnone.1] at hname
    cases hname
  · rw [hnone.2] at htext
    cases htext

theorem Row.unbroken_withDraft {r : Row} (h : r.record.Unbroken) {value : String}
    (hvalue : IsUnbroken value) :
    Record.Unbroken (Row.record { r with draftText := some value }) := by
  refine (Row.Keeps.draft r (some value)).unbroken h fun column hcolumn _ text htext => ?_
  obtain rfl := List.mem_singleton.1 hcolumn
  exact Cell.text.inj htext ▸ hvalue

-- ============================================================ layout

theorem Segment.WellFormed.isUnbroken {s : Segment} (h : s.WellFormed) : IsUnbroken s.text := by
  cases s with
  | syllable text => exact .of_blankless fun c hc => (h.2 c hc).1
  | marker m => cases m <;> exact .of_all (by decide)

theorem UnitMark.isUnbroken_text (m : UnitMark) : IsUnbroken m.text :=
  (((IsUnbroken.of_all (by decide)).append (.decimal _)).append
    (.ite (.of_all (by decide)) (.of_all (by decide)))).append (.of_all (by decide))

theorem KeySignature.WellFormed.isUnbroken {k : KeySignature} (h : k.WellFormed) :
    IsUnbroken k.text := by
  have hsign : IsUnbroken k.sign := by
    rcases h with ⟨hsign, -⟩ | ⟨hsign | hsign, -⟩
    all_goals
      rw [hsign]
      exact .of_all (by decide)
  exact ((IsUnbroken.of_all (by decide)).append hsign).append (.decimal _)

theorem Pitch.WellFormed.isUnbroken {p : Pitch} (h : p.WellFormed) :
    IsUnbroken p.text ∧ IsUnbroken p.letter := by
  have hletter : IsUnbroken p.letter := by
    have hall : ["a", "b", "c", "d", "e", "f", "g"].all (fun name => name.toList.all isGraphic)
        = true := by decide
    exact .of_all (List.all_eq_true.1 hall _ h.1)
  have hshifts : IsUnbroken p.shifts := .of_graphic fun c hc => by
    rcases h.2 c hc with rfl | rfl
    all_goals decide
  have hsymbol : IsUnbroken p.accidental.symbol := by
    cases p.accidental <;> exact .of_all (by decide)
  exact ⟨(hshifts.append hsymbol).append hletter, hletter⟩

theorem unbroken_keyRow (block measure : Int) {text : String} (h : IsUnbroken text) :
    (keyRow block measure text).record.Unbroken :=
  Row.unbroken_of_word h ⟨rfl, rfl⟩ ⟨rfl, rfl, rfl, rfl, rfl⟩

/-- The words of a score are unbroken. -/
theorem unbroken_of_mem_layout {s : Score} (hs : s.WellFormed) {r : Row} (hr : r ∈ s.layout) :
    r.record.Unbroken := by
  obtain ⟨b, hb, number, hlays⟩ := Score.lays_of_mem_layout hr
  obtain ⟨-, hlyrics, ⟨hitems, hopening⟩, -⟩ := hs.2 b hb
  cases hlays with
  | lyricBar | pitchBar => exact Row.unbroken_of_word .bar ⟨rfl, rfl⟩ ⟨rfl, rfl, rfl, rfl, rfl⟩
  | @unit _ m =>
      exact Row.unbroken_of_word m.isUnbroken_text ⟨rfl, rfl⟩ ⟨rfl, rfl, rfl, rfl, rfl⟩
  | segment _ hmem hsegment =>
      have hform := (hlyrics _ hmem).2.1 _ (List.fst_mem_of_mem_zipIdx hsegment)
      exact Row.unbroken_of_word hform.isUnbroken ⟨rfl, rfl⟩ ⟨rfl, rfl, rfl, rfl, rfl⟩
  | @opening o ho =>
      rw [ho] at hopening
      cases o with
      | key k => exact unbroken_keyRow _ _ hopening.isUnbroken
      | word text => exact hopening.elim
  | key _ hmem => exact unbroken_keyRow _ _ (hitems _ hmem).isUnbroken
  | pitch _ hmem =>
      obtain ⟨htext, hletter⟩ := (hitems _ hmem).isUnbroken
      refine Row.unbroken_of_plain htext (fun name hname => ?_) (fun text hnone => ?_)
        ⟨rfl, rfl, rfl, rfl, rfl⟩
      · obtain rfl := Option.some.inj hname
        exact hletter
      · cases hnone

-- ============================================================ stages

/-- A table whose rows are unbroken. -/
def Table.Unbroken (t : Table) : Prop :=
  ∀ r ∈ t, r.record.Unbroken

theorem Table.Unbroken.setField {t : Table} (h : t.Unbroken) (name : String) {value : String}
    (hvalue : IsUnbroken value) : (t.setField name value).Unbroken := by
  intro r hr
  obtain ⟨r, hmem, rfl⟩ := List.mem_map.1 hr
  split
  · exact Row.unbroken_withDraft (h r hmem) hvalue
  · exact h r hmem

theorem Table.Unbroken.withHeading {t : Table} (h : t.Unbroken) {title : String}
    (htitle : IsUnbroken title) : (t.withHeading title).Unbroken := by
  have hfields : ∀ field ∈ headingFields title, IsUnbroken field.1 ∧ IsUnbroken field.2 := by
    have hfixed : ∀ {name value : String}, name.toList.all isGraphic = true →
        value.toList.all isGraphic = true → IsUnbroken name ∧ IsUnbroken value :=
      fun hname hvalue => ⟨.of_all hname, .of_all hvalue⟩
    unfold headingFields
    simp only [List.forall_mem_cons]
    refine ⟨hfixed (by decide) (by decide), ⟨.of_all (by decide), htitle⟩,
      hfixed (by decide) (by decide), hfixed (by decide) (by decide),
      hfixed (by decide) (by decide), fun field hfield => absurd hfield List.not_mem_nil⟩
  refine List.forall_mem_append.2 ⟨fun r hr => ?_, h⟩
  obtain ⟨field, hfield, rfl⟩ := List.mem_map.1 hr
  obtain ⟨hname, hvalue⟩ := hfields field hfield
  refine Row.unbroken_of_plain hname (fun name hnone => ?_) (fun text htext => ?_)
    ⟨rfl, rfl, rfl, rfl, rfl⟩
  · cases hnone
  · obtain rfl := Option.some.inj htext
    exact hvalue

theorem Table.Unbroken.withUnitsOf {t : Table} (h : t.Unbroken) {ds : List Declaration}
    (hds : t.declarations = .ok ds) : (t.withUnitsOf ds).Unbroken := by
  refine Table.Unbroken.setField (fun r' hr' => ?_) "L" (.unitText _)
  have htargets : ∀ p ∈ t.zipIdx, ∀ d ∈ ds, d.target = some p.2 → p.1.isRhythm = true := by
    intro p hp d hd htarget
    obtain ⟨r, hr, hrhythm⟩ := declarations_target hds d hd p.2 htarget
    obtain rfl := Option.some.inj ((List.mem_zipIdx_iff_getElem?.1 hp).symm.trans hr)
    exact hrhythm
  obtain ⟨p, hp, hkeeps⟩ := exists_of_forall₂ (spread_keeps htargets) hr'
  refine hkeeps.unbroken (h p.1 (List.fst_mem_of_mem_zipIdx hp)) fun column hcolumn hdomain => ?_
  have hfraction : column = .unit ∨ column = .declared := by
    split at hcolumn
    · simpa using hcolumn
    · cases hcolumn
  rcases hfraction with rfl | rfl <;> cases hdomain

/-- What a measure announces is unbroken. -/
theorem isUnbroken_of_mem_withChanges {previous : Option Measure} {ms : List Measure}
    (h : ∀ m ∈ ms, IsUnbroken m.meter) {m : Measure × List String}
    (hm : m ∈ Measure.withChanges previous ms) : ∀ text ∈ m.2, IsUnbroken text := by
  induction ms generalizing previous with
  | nil => cases previous <;> cases hm
  | cons first ms ih =>
      obtain ⟨hfirst, hms⟩ := List.forall_mem_cons.1 h
      cases previous with
      | none =>
          rcases List.mem_cons.1 hm with rfl | hm
          · exact fun text htext => absurd htext List.not_mem_nil
          · exact ih hms hm
      | some previous =>
          rcases List.mem_cons.1 hm with rfl | hm
          · refine List.forall_mem_append.2 ⟨fun text htext => ?_, fun text htext => ?_⟩
            · split at htext
              · cases htext
              · obtain rfl := List.mem_singleton.1 htext
                exact ((IsUnbroken.of_all (by decide)).append (.unitText _)).append
                  (.of_all (by decide))
            · split at htext
              · cases htext
              · obtain rfl := List.mem_singleton.1 htext
                exact ((IsUnbroken.of_all (by decide)).append hfirst).append (.of_all (by decide))
          · exact ih hms hm

theorem Table.Unbroken.withMetersText {t : Table} (h : t.Unbroken) : t.withMetersText.Unbroken := by
  have hmeters : ∀ m ∈ t.measures, IsUnbroken m.meter := fun m hm =>
    (mem_measures hm).meter ▸ IsUnbroken.meterText _ _
  have hheading : IsUnbroken t.headingMeter := by
    unfold Table.headingMeter
    split
    · exact .of_all (by decide)
    · next m _ hms => exact hmeters m (hms ▸ List.mem_cons_self)
  rw [withMetersText_eq]
  refine Table.Unbroken.setField (fun r' hr' => ?_) "M" hheading
  obtain ⟨p, hp, rfl⟩ := List.mem_map.1 hr'
  have hrow := h p.1 (List.fst_mem_of_mem_zipIdx hp)
  unfold Table.metered
  split
  · exact hrow
  · next m hm =>
    obtain ⟨key, -, hfound⟩ := Option.bind_eq_some_iff.1 hm
    have hannounced := List.mem_of_find?_eq_some hfound
    have hmeter := hmeters m.1 (map_fst_announced t ▸ List.mem_map_of_mem hannounced)
    have hchanges := isUnbroken_of_mem_withChanges hmeters hannounced
    have hdirective : IsUnbroken p.1.directive := hrow .directive _ rfl
    refine (mark_keeps m p.1 p.2).unbroken hrow fun column hcolumn _ text htext => ?_
    simp only [List.mem_cons, List.not_mem_nil, or_false] at hcolumn
    unfold Measure.mark at htext
    dsimp only at htext
    rcases hcolumn with rfl | rfl
    · have hsame : Cell.text m.1.meter = .text text := by
        rw [← htext]
        split <;> rfl
      exact Cell.text.inj hsame ▸ hmeter
    · split at htext
      · obtain rfl := Cell.text.inj htext
        refine IsUnbroken.intercalate (.of_all (by decide)) fun text htext => ?_
        rcases List.mem_cons.1 (List.mem_filter.1 htext).1 with rfl | hmem
        · exact hdirective
        · exact hchanges text hmem
      · exact Cell.text.inj htext ▸ hdirective

theorem unbroken_write {r : Row} (h : r.record.Unbroken) {m : KeyMark} (hm : KnownKey m.key)
    (index : Nat) : (Keys.write index r m).record.Unbroken := by
  have hkey := IsUnbroken.key hm
  have hinline : IsUnbroken (Keys.inlineKey m.key) :=
    ((IsUnbroken.of_all (by decide)).append hkey).append (.of_all (by decide))
  have hown : Record.Unbroken
      (Row.record (if m.index = index then { r with key := some m.key } else r)) := by
    split
    · refine (Row.Keeps.key r _).unbroken h fun column hcolumn _ text htext => ?_
      obtain rfl := List.mem_singleton.1 hcolumn
      exact Cell.text.inj htext ▸ hkey
    · exact h
  unfold Keys.write
  dsimp only
  generalize (if m.index = index then { r with key := some m.key } else r) = own at hown
  split
  · split
    · refine (Row.Keeps.directive own _ _).unbroken hown fun column hcolumn _ text htext => ?_
      simp only [List.mem_cons, List.not_mem_nil, or_false] at hcolumn
      rcases hcolumn with rfl | rfl
      · obtain rfl := Cell.text.inj htext
        refine IsUnbroken.intercalate (.of_all (by decide)) fun text htext => ?_
        have hmem := (List.mem_filter.1 htext).1
        simp only [List.mem_cons, List.not_mem_nil, or_false] at hmem
        rcases hmem with rfl | rfl
        · exact hinline
        · exact hown .directive _ rfl
      · exact Cell.text.inj htext ▸ hkey
    · exact hown
  · split
    · refine (Row.Keeps.barline own _ _).unbroken hown fun column hcolumn _ text htext => ?_
      simp only [List.mem_cons, List.not_mem_nil, or_false] at hcolumn
      rcases hcolumn with rfl | rfl
      · obtain rfl := Cell.text.inj htext
        exact (IsUnbroken.bar.append (.of_all (by decide))).append hinline
      · exact Cell.text.inj htext ▸ hkey
    · exact hown
  · exact hown

theorem Table.Unbroken.withKeys {t : Table} (h : t.Unbroken) : t.withKeys.Unbroken := by
  refine Table.Unbroken.setField (fun r' hr' => ?_) "K" (.key (knownKey_headingKey t))
  obtain ⟨p, hp, rfl⟩ := List.mem_map.1 hr'
  have hrow := h p.1 (List.fst_mem_of_mem_zipIdx hp)
  unfold Keys.annotate
  refine List.foldlRecOn (motive := fun r => r.record.Unbroken) t.keyMarks (Keys.write p.2) ?_
    fun r hr m hm => unbroken_write hr (sound_of_mem_keyMarks hm).key p.2
  split
  · exact Row.unbroken_withDraft hrow .bar
  · exact hrow

theorem BeatGroup.isUnbroken_token {g : BeatGroup} {p : PlacedRow} (h : p.1.Sound) :
    IsUnbroken (g.token p) := by
  have hopening : IsUnbroken g.opening := .ite (.tupletOpening _ _) (.of_all (by decide))
  exact h.isUnbroken_encode _ (.ite hopening (.of_all (by decide)))

theorem Table.Unbroken.withNotesText {t : Table} (h : t.Unbroken) (hsound : ∀ r ∈ t, r.Sound) :
    t.withNotesText.Unbroken := by
  intro r' hr'
  obtain ⟨p, hp, rfl⟩ := List.mem_map.1 hr'
  have hmem := List.fst_mem_of_mem_zipIdx hp
  split
  · exact h p.1 hmem
  · next g hg =>
    obtain ⟨key, -, hfound⟩ := Option.bind_eq_some_iff.1 hg
    have hbeat := List.mem_of_find?_eq_some hfound
    refine (Row.Keeps.note p.1 _ _).unbroken (h p.1 hmem) fun column hcolumn _ text htext => ?_
    simp only [List.mem_cons, List.not_mem_nil, or_false] at hcolumn
    rcases hcolumn with rfl | rfl
    · exact Cell.text.inj htext ▸ BeatGroup.isUnbroken_token (hsound p.1 hmem)
    · obtain rfl := Cell.text.inj htext
      refine .ite (.join fun text htext => ?_) (.of_all (by decide))
      obtain ⟨q, hq, rfl⟩ := List.mem_map.1 htext
      exact BeatGroup.isUnbroken_token (hsound q.1 (Table.isRhythm_of_mem_beat hbeat hq).1)

theorem PlacedBeat.isUnbroken_runText {b : PlacedBeat} {run : List Row}
    (hsound : ∀ r ∈ run, r.Sound) (hunbroken : Table.Unbroken run) (dotted : Bool) :
    IsUnbroken (b.runText dotted run).1 := by
  have hnotes : IsUnbroken (String.join (run.map fun r => r.noteText.getD "")) := by
    refine .join fun text htext => ?_
    obtain ⟨r, hr, rfl⟩ := List.mem_map.1 htext
    refine .getD fun value hvalue => hunbroken r hr .noteText value ?_
    exact congrArg Cell.ofText? hvalue
  cases dotted with
  | false => cases run <;> exact hnotes
  | true =>
      cases run with
      | nil => exact hnotes
      | cons head run =>
          exact (hsound head List.mem_cons_self).isUnbroken_encode _ (.of_all rfl)

theorem PlacedBeat.isUnbroken_dotRuns {b : PlacedBeat} {runs : List (List Row)}
    (hsound : ∀ run ∈ runs, ∀ r ∈ run, r.Sound) (hunbroken : ∀ run ∈ runs, Table.Unbroken run)
    {position : Nat} {text : String} {count : Nat}
    (h : b.dotRuns position runs = .ok (text, count)) : IsUnbroken text := by
  induction runs generalizing position text count with
  | nil =>
      obtain ⟨rfl, -⟩ := Prod.mk.inj (Except.ok.inj h)
      exact .of_all rfl
  | cons run rest ih =>
      obtain ⟨hrun, hrest⟩ := List.forall_mem_cons.1 hsound
      obtain ⟨hnotes, hothers⟩ := List.forall_mem_cons.1 hunbroken
      cases hdots : b.dots position run.length with
      | error e =>
          simp only [PlacedBeat.dotRuns, hdots] at h
          cases h
      | ok dotted =>
          cases hmore : b.dotRuns (position + run.length) rest with
          | error e =>
              simp only [PlacedBeat.dotRuns, hdots, hmore] at h
              cases h
          | ok found =>
              rw [b.dotRuns_cons hdots hmore] at h
              obtain ⟨rfl, -⟩ := Prod.mk.inj (Except.ok.inj h)
              exact (PlacedBeat.isUnbroken_runText hrun hnotes dotted).append
                (ih hrest hothers hmore)

/-- Folding ties sets no text with a line end. -/
theorem isUnbroken_of_folding {t : Table} (h : t.Unbroken) (hsound : ∀ r ∈ t, r.Sound)
    {f : Folding} (hf : t.folding = .ok f) : ∀ e ∈ f.texts, IsUnbroken e.2 := by
  have hmembers : ∀ b ∈ t.placedBeats, ∀ p ∈ b.members, p.1 ∈ t := by
    intro b hb p hp
    have hbeat : b.toBeatGroup ∈ t.beats := map_toBeatGroup_placedBeats t ▸ List.mem_map_of_mem hb
    exact (Table.isRhythm_of_mem_beat hbeat hp).1
  obtain ⟨beats, hbeats, hf⟩ := bind_eq_ok.1 hf
  obtain rfl := Except.ok.inj hf
  refine List.forall_mem_append.2 ⟨fun e he => ?_, fun e he => ?_⟩
  · obtain ⟨d, hd, rfl⟩ := List.mem_map.1 he
    obtain ⟨b, hb, hdotted⟩ := exists_of_mapM_eq_ok hbeats (List.mem_filter.1 hd).1
    obtain ⟨⟨text, count⟩, hruns, rfl⟩ := map_eq_ok.1 hdotted
    have hrow : ∀ run ∈ b.runs, ∀ r ∈ run, r ∈ t := by
      intro run hrun r hr
      have hmem : r ∈ b.runs.flatten := List.mem_flatten_of_mem hrun hr
      unfold PlacedBeat.runs at hmem
      rw [List.flatten_splitBy] at hmem
      obtain ⟨p, hp, rfl⟩ := List.mem_map.1 hmem
      exact hmembers b hb p hp
    exact PlacedBeat.isUnbroken_dotRuns (fun run hrun r hr => hsound r (hrow run hrun r hr))
      (fun run hrun r hr => h r (hrow run hrun r hr)) hruns
  · obtain ⟨m, hm, he⟩ := List.mem_flatMap.1 he
    obtain ⟨b, rest, hsub, htakes⟩ := Merge.exists_of_mem_scan hm
    rcases htakes.mem_texts he with rfl | ⟨_, -, rfl⟩
    · refine (hsound b.first.1 ?_).isUnbroken_encode _ (.of_all rfl)
      exact hmembers b (hsub.subset List.mem_cons_self) b.first List.mem_cons_self
    · exact .of_all rfl

theorem Table.Unbroken.withTexts {t : Table} (h : t.Unbroken) {texts : List (Nat × String)}
    (htexts : ∀ e ∈ texts, IsUnbroken e.2) : (t.withTexts texts).Unbroken := by
  intro r' hr'
  obtain ⟨p, hp, rfl⟩ := List.mem_map.1 hr'
  have hrow := h p.1 (List.fst_mem_of_mem_zipIdx hp)
  refine (Row.Keeps.final p.1 _).unbroken hrow fun column hcolumn _ text htext => ?_
  obtain rfl := List.mem_singleton.1 hcolumn
  obtain rfl := Cell.text.inj htext
  cases hset : Table.textAt? texts p.2 with
  | some value => exact htexts _ (mem_of_textAt? hset)
  | none =>
      refine .getD fun value hvalue => hrow .draftText value ?_
      exact congrArg Cell.ofText? hvalue

theorem Table.Unbroken.voiced {t voiced : Table} (h : t.Unbroken) (hvoiced : t.voiced = .ok voiced) :
    voiced.Unbroken := by
  intro r' hr'
  obtain ⟨r, hr, hkeeps⟩ := exists_of_forall₂ (resolve_keeps hvoiced) hr'
  refine hkeeps.unbroken (h r hr) fun column hcolumn hdomain => ?_
  split at hcolumn
  · obtain rfl := List.mem_singleton.1 hcolumn
    cases hdomain
  · cases hcolumn

/-- The underlay writes the letters of pitches, which are no line ends. -/
theorem Table.Unbroken.underlaid {t : Table} (h : t.Unbroken) (hsound : ∀ r ∈ t, r.Sound) :
    Table.Unbroken (t.underlaid.map (·.1)) := by
  intro r' hr'
  obtain ⟨r, hr, hkeeps⟩ := exists_of_forall₂ (underlay_run_keeps _ _ _ t) hr'
  have hletter := letter_of_mem_underlaid (fun r hr => (hsound r hr).letter) hr'
  refine hkeeps.unbroken (h r hr) fun column hcolumn hdomain text htext => ?_
  split at hcolumn
  · simp only [List.mem_cons, List.not_mem_nil, or_false] at hcolumn
    rcases hcolumn with rfl | rfl | rfl
    · obtain ⟨l, rfl⟩ := hletter text (Cell.ofText?_inj (b := some text) htext)
      exact .letter l
    · cases hdomain
    · cases hdomain
  · cases hcolumn

/-- A stage behind the layout keeps a table unbroken, if the title is. -/
theorem Stage.run_unbroken {stage : Stage} {c c' : Context} {t t' : Table}
    (h : stage.run c t = .ok (c', t')) (hlayout : stage ≠ .layout)
    (htitle : ∀ title, c.title = .ok title → IsUnbroken title) (hsound : ∀ r ∈ t, r.Sound)
    (ht : t.Unbroken) : t'.Unbroken := by
  cases Stage.run_eq_ok_iff.1 h with
  | layout => exact absurd rfl hlayout
  | voicing hvoiced => exact ht.voiced hvoiced
  | underlay => exact ht.underlaid hsound
  | heading hok => exact ht.withHeading (htitle _ hok)
  | units hds => exact ht.withUnitsOf hds
  | meters => exact ht.withMetersText
  | keys => exact ht.withKeys
  | notes => exact ht.withNotesText hsound
  | ties hties =>
      obtain ⟨rfl, hf | hnone⟩ := Table.withTies_eq_ok hties
      · exact ht.withTexts (isUnbroken_of_folding ht hsound hf)
      · rw [hnone]
        exact ht.withTexts fun e he => absurd he List.not_mem_nil
  | assembly => exact ht

end LyricScore
