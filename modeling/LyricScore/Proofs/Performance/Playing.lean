/-
Playing a table. What is played depends on the rows that are heard and on the time of their beats,
not on texts. A row of a beat lasts as long in performance as it is written, tuplet included,
unless the beat is split into an even number of parts that is no power of two.
-/
import LyricScore.Performance.Event
import LyricScore.Proofs.Tune.Reading

namespace LyricScore

namespace Performance

-- ============================================================== rows

/-- Texts are not played. -/
theorem play_textless (groups : List BeatGroup) (s : State) (rows : List Row) :
    play groups s (rows.map Row.textless) = play groups s rows := by
  induction rows generalizing s with
  | nil => rfl
  | cons r rows ih =>
      simp only [List.map_cons, play, ih]
      rfl

/-- Of a beat only the time of its rows is played. -/
theorem play_congr {groups groups' : List BeatGroup} (s : State) {rows : List Row}
    (h : ∀ r ∈ rows, (Table.beatOf? groups' r).map BeatGroup.step
      = (Table.beatOf? groups r).map BeatGroup.step) :
    play groups' s rows = play groups s rows := by
  induction rows generalizing s with
  | nil => rfl
  | cons r rows ih =>
      obtain ⟨hr, hrows⟩ := List.forall_mem_cons.1 h
      simp only [play, ih _ hrows]
      split
      · rfl
      · split
        · rfl
        · cases hold : Table.beatOf? groups r with
          | none =>
              rw [hold, Option.map_none, Option.map_eq_none_iff] at hr
              rw [hr]
          | some g =>
              rw [hold] at hr
              obtain ⟨g', hnew, hstep⟩ := Option.map_eq_some_iff.1 hr
              rw [hnew]
              simp only [hstep]

/-- Rows that are not heard are not played. -/
theorem play_spoken (groups : List BeatGroup) (s : State) {rows : List Row}
    (h : ∀ r ∈ rows, r.source = .lyric → r.isSpoken = false → r.key = none) :
    play groups s (rows.filter Row.isSpoken) = play groups s rows := by
  induction rows generalizing s with
  | nil => rfl
  | cons r rows ih =>
      obtain ⟨hr, hrows⟩ := List.forall_mem_cons.1 h
      cases hspoken : r.isSpoken with
      | true =>
          rw [List.filter_cons_of_pos hspoken]
          simp only [play, ih _ hrows]
      | false =>
          rw [List.filter_cons_of_neg (by simp [hspoken]), ih s hrows, play]
          split
          · rfl
          · next hsource =>
            have hlyric : r.source = .lyric := Decidable.not_not.1 hsource
            have henter : s.enter r = s := by
              unfold State.enter
              rw [hr hlyric hspoken]
            obtain ⟨hrhythm, hbar⟩ := Bool.or_eq_false_iff.1 hspoken
            have hkind : r.kind ≠ .barline := by
              rintro hkind
              simp [Keys.isLyricBarline, hlyric, hkind] at hbar
            have hbeat : Table.beatOf? groups r = none := by
              unfold Table.beatOf? Row.beatKey?
              rw [if_neg (by simp [hrhythm])]
              rfl
            simp only [henter, if_neg hkind, hbeat]

end Performance

-- ============================================================ tables

/-- A beat lasts as long whatever the texts of its rows are. -/
theorem BeatGroup.step_mapRows {f : PlacedRow → Row} {g : BeatGroup}
    (hf : ∀ p ∈ g.members, (f p).textless = p.1.textless) : (g.mapRows f).step = g.step := by
  obtain ⟨hcount, hunit, hduration, hlength, -⟩ := BeatGroup.mapRows_spec hf
  unfold BeatGroup.step BeatGroup.span BeatGroup.compound
  rw [hcount, hunit, hduration, hlength]

/-- The beats of a table with final texts are its beats with other texts. -/
theorem beats_withTexts (t : Table) (texts : List (Nat × String)) :
    ∃ f : PlacedRow → Row, (∀ p, (f p).textless = p.1.textless)
      ∧ (t.withTexts texts).beats = t.beats.map (BeatGroup.mapRows f) :=
  ⟨fun p => { p.1 with
      finalText := some ((Table.textAt? texts p.2).getD (p.1.draftText.getD "")) },
    fun _ => rfl, beats_zipIdx_map fun _ _ => rfl⟩

theorem map_textless_withTexts (t : Table) (texts : List (Nat × String)) :
    (t.withTexts texts).map Row.textless = t.map Row.textless :=
  map_zipIdx_map fun _ _ => rfl

/-- Final texts are not played. -/
theorem play_withTexts (t : Table) (texts : List (Nat × String)) (s : Performance.State) :
    Performance.play (t.withTexts texts).beats s (t.withTexts texts)
      = Performance.play t.beats s t := by
  obtain ⟨f, hf, hbeats⟩ := beats_withTexts t texts
  rw [← Performance.play_textless, map_textless_withTexts, Performance.play_textless, hbeats]
  refine Performance.play_congr s fun r _ => ?_
  unfold Table.beatOf?
  cases r.beatKey? with
  | none => rfl
  | some k =>
      simp only [Option.bind_some, List.find?_map, Option.map_map]
      refine Option.map_congr fun g _ => ?_
      exact BeatGroup.step_mapRows fun p _ => hf p

-- ============================================================= times

/-- A row of a beat lasts as long as it is written, unless the beat is split into an even number of
parts that is no power of two. -/
theorem BeatGroup.step_eq_pace {g : BeatGroup}
    (h : g.compound = false → g.count % 2 = 0 → ∃ k, g.count = Nat.pow 2 k) :
    g.step = g.pace g.unit := by
  have hcount : (g.count : Rat) ≠ 0 := mt Rat.natCast_eq_zero_iff.1 (Nat.succ_ne_zero _)
  have hspan : g.count * g.length * g.scale = g.span := by
    refine splitTime_eq_span ?_
    by_cases hunit : g.unit = compoundUnit
    · exact Or.inl hunit
    · by_cases hodd : g.count % 2 = 1
      · exact Or.inr (Or.inl hodd)
      · exact Or.inr (Or.inr (h (beq_eq_false_iff_ne.2 hunit) (by omega)))
  unfold BeatGroup.step BeatGroup.pace
  rw [← hspan]
  grind

end LyricScore
