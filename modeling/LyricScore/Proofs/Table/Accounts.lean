/-
Two accounts of a measure. The meter counts the beats of a measure by its rows; the folding of ties
and the performance place beat behind beat, each over its span, from where the measure starts. Both
accounts are of the same beats, so they come to the same, with two exceptions.

- In the compound unit every row counts as one, but a beat of four rows or more is written in
  shorter notes, and its span falls short of its rows by two at least.
- A pickup on the counter 0 starts at the start of its measure, while its account takes one beat
  off.

The two never make up for each other, since they miss by at least two and by one.
-/
import LyricScore.Proofs.Table.Splits
import LyricScore.Proofs.Table.Timeline
import LyricScore.Table.Ties
import Mathlib.Algebra.Order.Field.Rat
import Mathlib.Data.List.Forall2
import Mathlib.Tactic.Linarith

namespace LyricScore

-- =============================================================== spans

namespace BeatGroup

theorem span_compound {g : BeatGroup} (h : g.unit = compoundUnit) :
    g.span = g.count / splitDenominator g.count true := by
  unfold span compound length splitLength
  rw [if_pos (by simpa using h), if_pos h, mul_one_div]

theorem span_of_count_le {g : BeatGroup} (h : g.unit = compoundUnit) (hcount : g.count ≤ 3) :
    g.span = g.count := by
  rw [span_compound h, splitDenominator_of_le_three hcount, Nat.cast_one, div_one]

/-- A beat of four rows or more falls short of them by two. -/
theorem span_add_two_le {g : BeatGroup} (h : g.unit = compoundUnit) (hcount : 4 ≤ g.count) :
    g.span + 2 ≤ g.count := by
  have hden : (2 : Rat) ≤ splitDenominator g.count true := by
    exact_mod_cast two_le_splitDenominator hcount
  have hfour : (4 : Rat) ≤ g.count := by exact_mod_cast hcount
  have hhalf : (g.count : Rat) / splitDenominator g.count true ≤ g.count / 2 :=
    div_le_div_of_nonneg_left (by linarith) (by norm_num) hden
  rw [span_compound h]
  linarith

end BeatGroup

/-- In the compound unit the spans come to the number of rows, or fall short of it by two. -/
theorem sumTimes_span_compound {gs : List BeatGroup} (h : ∀ g ∈ gs, g.unit = compoundUnit) :
    (∀ g ∈ gs, g.count ≤ 3) ∧ sumTimes (gs.map (·.span)) = ((gs.map (·.count)).sum : Nat)
      ∨ ¬ (∀ g ∈ gs, g.count ≤ 3) ∧ sumTimes (gs.map (·.span)) + 2 ≤ ((gs.map (·.count)).sum : Nat) := by
  induction gs with
  | nil => exact Or.inl ⟨fun g hg => absurd hg List.not_mem_nil, rfl⟩
  | cons g gs ih =>
      obtain ⟨hg, hgs⟩ := List.forall_mem_cons.1 h
      simp only [List.map_cons, sumTimes, List.sum_cons, Nat.cast_add, List.forall_mem_cons]
      rcases Nat.lt_or_ge 3 g.count with hlarge | hsmall
      · have hspan := BeatGroup.span_add_two_le hg hlarge
        refine Or.inr ⟨fun hall => absurd hall.1 (Nat.not_le.2 hlarge), ?_⟩
        rcases ih hgs with ⟨-, hrest⟩ | ⟨-, hrest⟩ <;> linarith
      · have hspan := BeatGroup.span_of_count_le hg hsmall
        rcases ih hgs with ⟨hall, hrest⟩ | ⟨hnot, hrest⟩
        · exact Or.inl ⟨⟨hsmall, hall⟩, by rw [hspan, hrest]⟩
        · exact Or.inr ⟨fun hall => hnot hall.2, by linarith⟩

-- =============================================================== rows

/-- The rows of a beat open it once. -/
theorem TimedBeat.filterMap_duration {b : TimedBeat} (hne : b.rows ≠ []) :
    b.rows.filterMap (fun r => if r.subdivision = some 1 then r.duration else none)
      = [(b.beat.duration : Rat)] := by
  unfold TimedBeat.rows LyricBeat.rows at *
  rw [List.filterMap_map]
  cases hsegments : b.beat.segments with
  | nil => simp [hsegments] at hne
  | cons segment rest =>
      rw [List.zipIdx_cons, List.filterMap_cons]
      dsimp only [Function.comp_def]
      rw [if_pos (show some ((1 : Nat) : Int) = some 1 from rfl)]
      refine congrArg (_ :: ·) (List.filterMap_eq_nil_iff.2 fun s hs => ?_)
      have hplace : 1 + 1 ≤ s.2 := (List.mem_zipIdx hs).1
      have hlater : ¬ (some (s.2 : Int) = some 1) := by
        rw [Option.some_inj]
        omega
      exact if_neg hlater

/-- The durations of beats come to a whole number. -/
theorem sumTimes_durations (bs : List TimedBeat) :
    sumTimes (bs.map fun b => (b.beat.duration : Rat)) = ((bs.map (·.beat.duration)).sum : Int) := by
  induction bs with
  | nil => rfl
  | cons b bs ih => simp only [List.map_cons, sumTimes, ih, List.sum_cons, Int.cast_add]

/-- The rows of beats count as their durations, or one by one in the compound unit. -/
theorem countBeats_rows {bs : List TimedBeat} (hne : ∀ b ∈ bs, b.rows ≠ []) (unit : Rat) :
    Measure.countBeats unit (bs.flatMap TimedBeat.rows)
      = if unit = compoundUnit then (((bs.map (·.rows.length)).sum : Nat) : Int)
        else (bs.map (·.beat.duration)).sum := by
  unfold Measure.countBeats
  split
  · rw [List.length_flatMap]
  · have hopen : (bs.flatMap TimedBeat.rows).filterMap
          (fun r => if r.subdivision = some 1 then r.duration else none)
        = bs.map fun b => (b.beat.duration : Rat) := by
      rw [List.filterMap_flatMap, List.map_eq_flatMap]
      exact List.flatMap_congr fun b hb => TimedBeat.filterMap_duration (hne b hb)
    dsimp only
    rw [hopen, sumTimes_durations, Rat.num_intCast, Rat.den_intCast]
    exact Int.tdiv_one _

theorem countBeats_outline (unit : Rat) (rows : List PlacedRow) :
    Measure.countBeats unit (rows.map (·.1))
      = Measure.countBeats unit (rows.map fun p => p.1.outline) := by
  unfold Measure.countBeats
  rw [List.length_map, List.length_map, List.filterMap_map, List.filterMap_map]
  rfl

-- ============================================================== beats

theorem TimedBeat.effectiveDuration_of_mem {b : TimedBeat} {r : Row} (h : r.outline ∈ b.rows)
    (hb : 1 ≤ b.beat.duration) : r.effectiveDuration = b.beat.duration := by
  have hduration : r.duration = some (b.beat.duration : Rat) := (mem_beat_rows h).2.2.2.2.2
  have hne : (b.beat.duration : Rat) ≠ 0 := by
    have : b.beat.duration ≠ 0 := by omega
    exact_mod_cast this
  unfold Row.effectiveDuration
  rw [hduration]
  exact if_neg hne

/-- A beat of a table and the beat of the score that it is. -/
structure BeatGroup.Is (g : BeatGroup) (b : TimedBeat) : Prop where
  key : g.key = b.key
  rows : g.members.map (fun p => p.1.outline) = b.rows

namespace BeatGroup.Is

variable {g : BeatGroup} {b : TimedBeat}

theorem count_eq (h : g.Is b) : g.count = b.rows.length := by
  rw [← h.rows, List.length_map]
  rfl

theorem first_mem (h : g.Is b) : g.first.1.outline ∈ b.rows := by
  rw [← h.rows]
  exact List.mem_map_of_mem (f := fun p : PlacedRow => p.1.outline) List.mem_cons_self

theorem duration_eq (h : g.Is b) (hb : 1 ≤ b.beat.duration) : g.duration = b.beat.duration :=
  TimedBeat.effectiveDuration_of_mem h.first_mem hb

theorem measureStart_eq (h : g.Is b) :
    g.measureStart = if b.key.measure = 0 then
      (b.counter.map fun counter : Int => if counter = 0 then (0 : Rat) else counter - 1).getD 0
      else 0 := by
  have hmeasure : g.first.1.measure = some b.key.measure := (mem_beat_rows h.first_mem).2.2.2.1
  have hpickup : g.first.1.pickup = b.counter := (TimedBeat.mem_rows h.first_mem).2.2
  unfold BeatGroup.measureStart
  rw [hmeasure, hpickup]
  simp only [Option.some_inj]
  cases b.counter <;> rfl

end BeatGroup.Is

/-- The first beat of a measure starts where its measure does. -/
theorem start_of_place {earlier groups : List BeatGroup} {k : MeasureKey} {first : PlacedBeat}
    {rest : List PlacedBeat} (hearlier : ∀ e ∈ earlier, e.key.inMeasure ≠ k)
    (h : (BeatGroup.place earlier groups).filter (fun g => decide (g.key.inMeasure = k)) = first :: rest) :
    first.start = first.measureStart := by
  induction groups generalizing earlier with
  | nil => cases h
  | cons g groups ih =>
      rw [BeatGroup.place] at h
      by_cases hkey : g.key.inMeasure = k
      · rw [List.filter_cons_of_pos (by simpa using hkey)] at h
        obtain ⟨rfl, -⟩ := List.cons.inj h
        have hnone : earlier.filter (fun e => decide (e.key.inMeasure = g.key.inMeasure)) = [] := by
          refine List.filter_eq_nil_iff.2 fun e he => ?_
          simpa [hkey] using hearlier e he
        show g.startAfter earlier = _
        unfold BeatGroup.startAfter
        rw [hnone]
        exact add_zero _
      · rw [List.filter_cons_of_neg (by simpa using hkey)] at h
        refine ih (List.forall_mem_append.2 ⟨hearlier, ?_⟩) h
        simpa using hkey

-- =========================================================== measures

/-- The rows of a measure have one unit. -/
def Table.Unitary (t : Table) : Prop :=
  ∀ r ∈ t, ∀ r' ∈ t, ∀ k, r.measureKey? = some k → r'.measureKey? = some k →
    r.effectiveUnit = r'.effectiveUnit

namespace Table.Times

variable {t : Table} {beats : List TimedBeat}

/-- The beats of the table are those of the score, one by one. -/
theorem beats_are (h : t.Times beats) (hne : ∀ b ∈ beats, b.rows ≠ [])
    (hkeys : (beats.map (·.key)).Nodup) : List.Forall₂ BeatGroup.Is t.beats beats := by
  have hmap := h.map_beats hne hkeys
  rw [← List.forall₂_eq_eq_eq, List.forall₂_map_left_iff, List.forall₂_map_right_iff] at hmap
  exact hmap.imp fun g b hgb => ⟨congrArg Prod.fst hgb, congrArg Prod.snd hgb⟩

/-- The beats of a measure, in the table and in the score. -/
theorem beats_inMeasure (h : t.Times beats) (hne : ∀ b ∈ beats, b.rows ≠ [])
    (hkeys : (beats.map (·.key)).Nodup) (k : MeasureKey) :
    List.Forall₂ BeatGroup.Is (t.beats.filter fun g => decide (g.key.inMeasure = k))
      (beats.filter fun b => decide (b.key.inMeasure = k)) := by
  refine List.rel_filter (fun g b hgb => ?_) (h.beats_are hne hkeys)
  dsimp only
  rw [hgb.key]

end Table.Times

theorem sum_count {gs : List BeatGroup} {bs : List TimedBeat} (h : List.Forall₂ BeatGroup.Is gs bs) :
    (gs.map (·.count)).sum = (bs.map (·.rows.length)).sum := by
  induction h with
  | nil => rfl
  | cons hg _ ih => simp only [List.map_cons, List.sum_cons, hg.count_eq, ih]

theorem sumTimes_duration {gs : List BeatGroup} {bs : List TimedBeat}
    (h : List.Forall₂ BeatGroup.Is gs bs) (hbs : ∀ b ∈ bs, 1 ≤ b.beat.duration) :
    sumTimes (gs.map (·.duration)) = ((bs.map (·.beat.duration)).sum : Int) := by
  rw [← sumTimes_durations]
  induction h with
  | nil => rfl
  | cons hg _ ih =>
      obtain ⟨hb, hrest⟩ := List.forall_mem_cons.1 hbs
      simp only [List.map_cons, sumTimes, hg.duration_eq hb, ih hrest]

/-- What a measure of a table has from the beats of the score. -/
structure Measure.Accounts (m : Measure) (b : TimedBeat) (bs : List TimedBeat) : Prop where
  key : b.key.inMeasure = m.key
  counted : m.counted = if m.unit = compoundUnit then ((((b :: bs).map (·.rows.length)).sum : Nat) : Int)
    else ((b :: bs).map (·.beat.duration)).sum
  beats : m.beats = if m.key.measure = 0 then pickupBeats m.counted b.counter else m.counted

theorem Table.Times.accounts {t : Table} {beats : List TimedBeat} (h : t.Times beats)
    (hne : ∀ b ∈ beats, b.rows ≠ []) {m : Measure} (hm : m ∈ t.measures) :
    ∃ b bs, beats.filter (fun b => decide (b.key.inMeasure = m.key)) = b :: bs ∧ m.Accounts b bs := by
  have hself := mem_measures hm
  have hmembers := h.members_measure hm
  cases hbs : beats.filter fun b => decide (b.key.inMeasure = m.key) with
  | nil =>
      rw [hbs] at hmembers
      cases hmembers
  | cons b bs =>
      have hmem : ∀ b' ∈ b :: bs, b' ∈ beats ∧ b'.key.inMeasure = m.key := by
        intro b' hb'
        rw [← hbs] at hb'
        obtain ⟨hb', hkey⟩ := List.mem_filter.1 hb'
        exact ⟨hb', of_decide_eq_true hkey⟩
      have hrows : ∀ b' ∈ b :: bs, b'.rows ≠ [] := fun b' hb' => hne b' (hmem b' hb').1
      rw [hbs] at hmembers
      have hfirst : m.first.1.outline ∈ b.rows := by
        have hhead := congrArg List.head? hmembers
        rw [List.flatMap_cons, List.head?_append_of_ne_nil _ (hrows b List.mem_cons_self)] at hhead
        exact List.mem_of_head? hhead.symm
      have hpickup : m.first.1.pickup = b.counter := (TimedBeat.mem_rows hfirst).2.2
      have hcount := countBeats_rows hrows m.unit
      rw [← hmembers, ← countBeats_outline] at hcount
      refine ⟨b, bs, rfl, (hmem b List.mem_cons_self).2, hself.counted.trans hcount, ?_⟩
      rw [hself.beats, hpickup]

/-- The unit of a beat is that of any row of its measure. -/
theorem Table.Unitary.unit_eq {t : Table} (hunits : t.Unitary) {g : BeatGroup} (hg : g ∈ t.beats)
    {r : Row} (hr : r ∈ t) (hkey : r.measureKey? = some g.key.inMeasure) :
    g.unit = r.effectiveUnit := by
  obtain ⟨hplaced, hbeat⟩ := Table.mem_beat hg (p := g.first) List.mem_cons_self
  have hfirst := List.fst_mem_of_mem_zipIdx hplaced
  exact hunits _ hfirst r hr _ (measureKey?_of_beatKey? hbeat) hkey

/-- The beats of a measure have its unit. -/
theorem Table.Unitary.beat_unit {t : Table} (hunits : t.Unitary) {m : Measure} (hm : m ∈ t.measures)
    {g : BeatGroup} (hg : g ∈ t.beats) (hkey : g.key.inMeasure = m.key) : g.unit = m.unit := by
  have hmeasure : m.first ∈ t.zipIdx ∧ m.first.1.measureKey? = some m.key := by
    have hfirst : m.first ∈ m.members := List.mem_cons_self
    rw [(mem_measures hm).members] at hfirst
    obtain ⟨htimed, hfirst⟩ := List.mem_filter.1 hfirst
    exact ⟨(List.mem_filter.1 htimed).1, of_decide_eq_true hfirst⟩
  rw [(mem_measures hm).unit]
  exact hunits.unit_eq hg (List.fst_mem_of_mem_zipIdx hmeasure.1) (hkey ▸ hmeasure.2)

/-- The spans of a measure come to what is counted, or fall short of it by two. -/
theorem Measure.Accounts.sumTimes_span {m : Measure} {b : TimedBeat} {bs : List TimedBeat}
    (h : m.Accounts b bs) {gs : List BeatGroup} (his : List.Forall₂ BeatGroup.Is gs (b :: bs))
    (hlong : ∀ b' ∈ b :: bs, 1 ≤ b'.beat.duration) (hunits : ∀ g ∈ gs, g.unit = m.unit) :
    (m.unit ≠ compoundUnit ∨ ∀ g ∈ gs, g.count ≤ 3) ∧ sumTimes (gs.map (·.span)) = m.counted
      ∨ ¬ (m.unit ≠ compoundUnit ∨ ∀ g ∈ gs, g.count ≤ 3)
        ∧ sumTimes (gs.map (·.span)) + 2 ≤ m.counted := by
  have hcounted := h.counted
  by_cases hunit : m.unit = compoundUnit
  · rw [if_pos hunit, ← sum_count his] at hcounted
    have hsum := sumTimes_span_compound fun g hg => (hunits g hg).trans hunit
    rw [hcounted, Int.cast_natCast]
    simpa [hunit] using hsum
  · rw [if_neg hunit] at hcounted
    have hspan : gs.map (·.span) = gs.map (·.duration) := List.map_congr_left fun g hg =>
      BeatGroup.span_of_unit_ne (hunits g hg ▸ hunit)
    exact Or.inl ⟨Or.inl hunit, by rw [hspan, hcounted, sumTimes_duration his hlong]⟩

/-- From where a measure starts, spans that come to what is counted, or fall short of it by two, come
to the beats of the measure just if they come to what is counted, and no beat was taken off. -/
theorem start_add_span_eq_iff {full : Prop} {span : Rat} {counted measure : Int} {counter : Option Int}
    (h : full ∧ span = counted ∨ ¬ full ∧ span + 2 ≤ counted) :
    (if measure = 0 then
          (counter.map fun counter : Int => if counter = 0 then (0 : Rat) else counter - 1).getD 0
        else 0) + span
        = ((if measure = 0 then pickupBeats counted counter else counted : Int) : Rat)
      ↔ full ∧ ¬ (measure = 0 ∧ counter = some 0) := by
  have hspan_eq : span = counted ↔ full := by
    rcases h with ⟨hfull, hspan⟩ | ⟨hnot, hspan⟩
    · exact iff_of_true hspan hfull
    · exact iff_of_false (fun heq => by linarith) hnot
  by_cases hmeasure : measure = 0
  · rw [if_pos hmeasure, if_pos hmeasure]
    cases counter with
    | none => simp [pickupBeats, hspan_eq]
    | some counter =>
        by_cases hzero : counter = 0
        · have hoff : span ≠ (counted : Rat) - 1 := by
            rcases h with ⟨-, hspan⟩ | ⟨-, hspan⟩
            · intro heq
              linarith
            · intro heq
              linarith
          refine iff_of_false (fun heq => hoff ?_) fun hand => hand.2 ⟨hmeasure, hzero ▸ rfl⟩
          simpa [pickupBeats, hzero] using heq
        · have hshift : (counter : Rat) - 1 + span = (counter : Rat) + (counted - 1) ↔ span = counted := by
            constructor
            · intro heq
              linarith
            · intro heq
              linarith
          simpa [pickupBeats, hzero, hmeasure, hspan_eq] using hshift
  · rw [if_neg hmeasure, if_neg hmeasure, zero_add, hspan_eq]
    simp [hmeasure]

/-- The accounts of a measure agree, unless in the compound unit a beat has more than three rows, or
the measure is a pickup on the counter 0. -/
theorem Table.Times.agrees {t : Table} {beats : List TimedBeat} (h : t.Times beats)
    (hne : ∀ b ∈ beats, b.rows ≠ []) (hkeys : (beats.map (·.key)).Nodup)
    (hlong : ∀ b ∈ beats, 1 ≤ b.beat.duration) (hunits : t.Unitary) {m : Measure} (hm : m ∈ t.measures) :
    ∃ b ∈ beats, b.key.inMeasure = m.key ∧ ∃ first rest,
      t.placedBeats.filter (fun g => decide (g.key.inMeasure = m.key)) = first :: rest
        ∧ (first.start + sumTimes ((first :: rest).map fun g => g.span) = m.beats
          ↔ (m.unit ≠ compoundUnit ∨ ∀ g ∈ first :: rest, g.count ≤ 3)
            ∧ ¬ (m.key.measure = 0 ∧ b.counter = some 0)) := by
  obtain ⟨b, bs, hbs, haccounts⟩ := h.accounts hne hm
  have hmem : ∀ b' ∈ b :: bs, b' ∈ beats := fun b' hb' => (List.mem_filter.1 (hbs ▸ hb')).1
  have his := h.beats_inMeasure hne hkeys m.key
  rw [hbs] at his
  -- the placed beats of the measure are its beats
  have hplaced : (t.placedBeats.filter fun g => decide (g.key.inMeasure = m.key)).map
        PlacedBeat.toBeatGroup
      = t.beats.filter fun g => decide (g.key.inMeasure = m.key) := by
    rw [← map_toBeatGroup_placedBeats t, List.filter_map]
    rfl
  have hsum := haccounts.sumTimes_span his (fun b' hb' => hlong b' (hmem b' hb')) fun g hg => by
    obtain ⟨hg, hkey⟩ := List.mem_filter.1 hg
    exact hunits.beat_unit hm hg (of_decide_eq_true hkey)
  refine ⟨b, hmem b List.mem_cons_self, haccounts.key, ?_⟩
  cases hps : t.placedBeats.filter fun g => decide (g.key.inMeasure = m.key) with
  | nil =>
      rw [hps] at hplaced
      rw [← hplaced] at his
      cases his
  | cons first rest =>
      refine ⟨first, rest, rfl, ?_⟩
      rw [hps] at hplaced
      rw [← hplaced] at his hsum
      have hstart := start_of_place (fun e he => absurd he List.not_mem_nil) hps
      cases his with
      | cons hfirst _ =>
          have hmeasure : b.key.measure = m.key.measure := congrArg MeasureKey.measure haccounts.key
          have hspans : (first :: rest).map (fun g => g.span)
              = ((first :: rest).map PlacedBeat.toBeatGroup).map (·.span) := by
            rw [List.map_map]
            rfl
          rw [hstart, hfirst.measureStart_eq, haccounts.beats, hmeasure, hspans, start_add_span_eq_iff hsum,
            List.forall_mem_map]

end LyricScore
