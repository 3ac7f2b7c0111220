/-
The written time of a beat: the lengths of its notes, scaled by the opening of its tuplet, both read
off the text. It is the span of the beat, which is the time that the folding of ties and the
performance give the beat, with one exception. Outside of the compound unit a beat that is split
into an even number of parts has no tuplet, and unless that number is a power of two its notes are
too long.

# Letters

Where the letters of the rows exist, the time is read from the draft of the beat
(`BeatGroup.TimeWritten.decoded`). Rows with other letters are written as well, each as its pitch
with the same length behind it, so `BeatGroup.TimeWritten.notes` says of all rows what is written.
-/
import LyricScore.Performance.Event
import LyricScore.Proofs.Tune.Fragment
import LyricScore.Table.Ties

namespace LyricScore

-- =========================================================== openings

/-- The opening of a split. -/
def splitOpening (count : Nat) (unit : Rat) : String :=
  if needsTuplet count (unit == compoundUnit) then
    tupletOpening count (splitDenominator count (unit == compoundUnit))
  else ""

/-- How an opening scales the notes behind it, read from its characters. -/
def openingScale (opening : String) : Rat :=
  match tokens opening.toList with
  | some [.tuplet count time] => (time : Rat) / (count : Rat)
  | _ => 1

/-- What the parts of a split are written with, in units. -/
def writtenTime (count : Nat) (duration unit : Rat) : Rat :=
  count * splitLength count duration unit * openingScale (splitOpening count unit)

/-- An opening that is written scales as the bracket that is meant. -/
theorem openingScale_splitOpening (count : Nat) (unit : Rat) :
    openingScale (splitOpening count unit) = splitScale count (unit == compoundUnit) := by
  unfold openingScale splitOpening splitScale
  by_cases hneeds : needsTuplet count (unit == compoundUnit) = true
  · rw [if_pos hneeds, if_pos hneeds, (Reads.of_needsTuplet hneeds).tokens_eq]
  · rw [if_neg hneeds, if_neg hneeds, Reads.empty.tokens_eq]

theorem writtenTime_eq_splitTime (count : Nat) (duration unit : Rat) :
    writtenTime count duration unit = splitTime count duration unit := by
  unfold writtenTime splitTime
  rw [openingScale_splitOpening]

theorem splitOpening_compound (count : Nat) : splitOpening count compoundUnit = "" := by
  refine if_neg fun hneeds => ?_
  have hsimple := (needsTuplet_natCast.1 hneeds).2.2
  rw [beq_self_eq_true] at hsimple
  cases hsimple

-- ========================================================== fragments

/-- The length of a note, in units. -/
def WrittenNote.length : WrittenNote → Rat
  | rest length => length
  | attack _ _ _ length => length
  | hold _ _ length => length

namespace Fragment

/-- How the tuplet of a fragment scales its notes. -/
def scale (f : Fragment) : Rat :=
  match f.tuplet with
  | some (count, time) => (time : Rat) / (count : Rat)
  | none => 1

/-- The time of a fragment, in units. -/
def time (f : Fragment) : Rat :=
  sumTimes (f.notes.map (·.length)) * f.scale

end Fragment

theorem length_writtenNote (r : Row) (length : Rat) : (r.writtenNote length).length = length := by
  unfold Row.writtenNote
  repeat' split
  all_goals rfl

namespace BeatGroup

variable {g : BeatGroup}

theorem scale_written (g : BeatGroup) : g.written.scale = splitScale g.count g.compound := by
  unfold Fragment.scale splitScale
  by_cases hbracketed : needsTuplet g.count g.compound = true
  · have htuplet : g.written.tuplet = some (g.count, splitDenominator g.count g.compound) :=
      if_pos hbracketed
    rw [htuplet, if_pos hbracketed]
  · have htuplet : g.written.tuplet = none := if_neg hbracketed
    rw [htuplet, if_neg hbracketed]

/-- What a beat asks for takes the time of its split. -/
theorem time_written (g : BeatGroup) : g.written.time = splitTime g.count g.duration g.unit := by
  have hlengths : g.written.notes.map (·.length) = .replicate g.count g.length := by
    unfold written
    rw [List.map_map]
    refine List.eq_replicate_iff.2 ⟨List.length_map _, fun length hlength => ?_⟩
    obtain ⟨p, -, rfl⟩ := List.mem_map.1 hlength
    exact length_writtenNote p.1 g.length
  unfold Fragment.time
  rw [hlengths, sumTimes_replicate, scale_written]
  rfl

-- ============================================================= starts

theorem place_append (earlier gs hs : List BeatGroup) :
    place earlier (gs ++ hs) = place earlier gs ++ place (earlier ++ gs) hs := by
  induction gs generalizing earlier with
  | nil => rw [List.nil_append, List.append_nil, place, List.nil_append]
  | cons g gs ih =>
      rw [List.cons_append, place, place, ih, List.append_assoc]
      rfl

/-- Of placed beats, those behind some first ones are placed behind them. -/
theorem eq_place_of_append {earlier gs : List BeatGroup} {bs cs : List PlacedBeat}
    (h : place earlier gs = bs ++ cs) :
    cs = place (earlier ++ bs.map (·.toBeatGroup)) (cs.map (·.toBeatGroup)) := by
  have hgs : gs = bs.map (·.toBeatGroup) ++ cs.map (·.toBeatGroup) := by
    rw [← List.map_append, ← h, map_toBeatGroup_place]
  have hlength : (place earlier (bs.map (·.toBeatGroup))).length = bs.length := by
    have hlength := congrArg List.length (map_toBeatGroup_place earlier (bs.map (·.toBeatGroup)))
    rwa [List.length_map, List.length_map] at hlength
  rw [hgs, place_append] at h
  exact (List.append_inj h hlength).2.symm

/-- The next beat of a measure starts a span later. -/
theorem startAfter_next {earlier between : List BeatGroup} {g' : BeatGroup}
    (hsame : g'.key.inMeasure = g.key.inMeasure)
    (hbetween : ∀ c ∈ between, c.key.inMeasure ≠ g.key.inMeasure) :
    g'.startAfter (earlier ++ g :: between) = g.startAfter earlier + g.span := by
  have hnone : between.filter (fun e => decide (e.key.inMeasure = g.key.inMeasure)) = [] := by
    refine List.filter_eq_nil_iff.2 fun c hc => ?_
    simpa using hbetween c hc
  unfold startAfter
  rw [hsame, List.filter_append, List.filter_cons_of_pos (by simp), hnone]
  generalize earlier.filter (fun e => decide (e.key.inMeasure = g.key.inMeasure)) = inMeasure
  -- the measure starts with the same beat, seen from either of the two
  have hhead : (inMeasure ++ [g]).head?.getD g' = inMeasure.head?.getD g := by
    cases inMeasure <;> rfl
  dsimp only
  rw [hhead, List.map_append, sumTimes_append, ← Rat.add_assoc]
  congr 1
  exact Rat.add_zero _

end BeatGroup

/-- Among the beats of a table with their starts, the next one of a measure starts a span later. -/
theorem Table.start_next {t : Table} {before between after : List PlacedBeat} {b b' : PlacedBeat}
    (h : t.placedBeats = before ++ b :: (between ++ b' :: after))
    (hsame : b'.key.inMeasure = b.key.inMeasure)
    (hbetween : ∀ c ∈ between, c.key.inMeasure ≠ b.key.inMeasure) :
    b'.start = b.start + b.span := by
  have hb := congrArg (List.map (·.start) ·) (BeatGroup.eq_place_of_append h)
  rw [← List.cons_append, ← List.append_assoc] at h
  have hb' := congrArg (List.map (·.start) ·) (BeatGroup.eq_place_of_append h)
  rw [List.map_cons, List.map_cons, BeatGroup.place, List.map_cons] at hb hb'
  rw [(List.cons.inj hb).1, (List.cons.inj hb').1, List.nil_append, List.nil_append,
    List.map_append, List.map_cons]
  refine BeatGroup.startAfter_next hsame fun c hc => ?_
  obtain ⟨d, hd, rfl⟩ := List.mem_map.1 hc
  exact hbetween d hd

-- ============================================================= tables

/-- How the note encoder writes a beat of the table `t` in the table `t'`. -/
structure BeatGroup.TimeWritten (g : BeatGroup) (t t' : Table) : Prop where
  /-- Every row is written with the length of the split, the first one behind its opening. -/
  notes : ∀ p ∈ g.members, (t'[p.2]?).bind (·.noteText)
    = some (p.1.encode (splitLength g.count g.duration g.unit)
      (if p.2 = g.first.2 then splitOpening g.count g.unit else ""))
  /-- The beat is written with its span, unless its split is even and no power of two. -/
  kept : g.unit = compoundUnit ∨ g.count % 2 = 1 ∨ (∃ k, g.count = Nat.pow 2 k) →
    writtenTime g.count g.duration g.unit = g.span
  longer : ¬ (g.unit = compoundUnit ∨ g.count % 2 = 1 ∨ ∃ k, g.count = Nat.pow 2 k) →
    g.span < writtenTime g.count g.duration g.unit
  /-- The time is that of the draft, if its letters can be read. -/
  decoded : (∀ p ∈ g.members, p.1.Lettered) → ∃ text f,
    (t'[g.first.2]?).bind (·.draftText) = some text ∧ Fragment.decode? text = some f
      ∧ f.time = writtenTime g.count g.duration g.unit
  /-- The next beat of the measure starts a span later. -/
  placed : ∀ before between after (b b' : PlacedBeat),
    t.placedBeats = before ++ b :: (between ++ b' :: after) → b.toBeatGroup = g →
    b'.key.inMeasure = g.key.inMeasure → (∀ c ∈ between, c.key.inMeasure ≠ g.key.inMeasure) →
    b'.start = b.start + g.span
  /-- The rows of the beat share its span in performance. -/
  played : g.count * g.step = g.span * g.unit * 4

theorem BeatGroup.timeWritten {t : Table} {g : BeatGroup} (hg : g ∈ t.beats)
    (hduration : 0 < g.duration) : g.TimeWritten t t.withNotesText where
  notes p hp := by
    rw [getElem?_withNotesText hg hp]
    rfl
  kept h := (writtenTime_eq_splitTime _ _ _).trans (splitTime_eq_span h)
  longer h := by
    rw [writtenTime_eq_splitTime]
    exact span_lt_splitTime hduration h
  decoded hletters := by
    refine ⟨g.fragment, g.written, ?_, ?_, ?_⟩
    · rw [getElem?_withNotesText hg List.mem_cons_self]
      exact congrArg some (if_pos rfl)
    · exact g.decode?_fragment (Table.pairwise_members hg) hletters hduration
    · rw [writtenTime_eq_splitTime, time_written]
  placed before between after b b' h hb hsame hbetween := by
    subst hb
    exact Table.start_next h hsame hbetween
  played := by
    have hcount : (g.count : Rat) ≠ 0 := mt Rat.natCast_eq_zero_iff.1 (Nat.succ_ne_zero _)
    unfold step
    grind

/-- A split outside of the compound unit is written with the duration of its beat just if it is odd
or a power of two, and one in the compound unit without a bracket. So the note encoder writes every
beat with its span, or with more where an even split is no power of two. -/
theorem writtenTime_eq_iff_and_timeWritten :
    (∀ (count : Nat) (duration unit : Rat), 0 < count → 0 < duration → unit ≠ compoundUnit →
      (writtenTime count duration unit = duration ↔ count % 2 = 1 ∨ ∃ k, count = Nat.pow 2 k))
    ∧ (∀ (count : Nat) (duration : Rat), splitOpening count compoundUnit = ""
      ∧ writtenTime count duration compoundUnit
        = count * splitLength count duration compoundUnit)
    ∧ ∀ t : Table, (∀ r ∈ t, r.isRhythm = true → ∀ d ∈ r.duration, 0 < d) →
      (∀ g ∈ t.beats, lengthFits g.length = true) →
      ∃ t', t.withNotes = .ok t' ∧ ∀ g ∈ t.beats, g.TimeWritten t t' := by
  refine ⟨fun count duration unit hcount hduration hunit => ?_, fun count duration => ?_,
    fun t hdurations hfits => ?_⟩
  · rw [writtenTime_eq_splitTime]
    refine ⟨fun htime => ?_, splitTime_eq hunit⟩
    by_contra hsplit
    exact Rat.ne_of_gt (lt_splitTime hcount hduration hunit hsplit) htime
  · refine ⟨splitOpening_compound count, ?_⟩
    rw [writtenTime_eq_splitTime, splitTime_compound rfl]
  · refine ⟨t.withNotesText, if_pos (List.all_eq_true.2 hfits), fun g hg => ?_⟩
    obtain ⟨hmem, hrhythm⟩ := Table.isRhythm_of_mem_beat hg List.mem_cons_self
    exact BeatGroup.timeWritten hg (Row.effectiveDuration_pos (hdurations g.first.1 hmem hrhythm))

/-- A beat of six attacks. -/
def sixAttacks : Table :=
  .replicate 6
    { source := .lyric, block := 1, kind := .attack, measure := some 1, beat := some 1,
      duration := some 1, letter := some "c", octave := some 4 }

/-- Six attacks in a beat of one unit are written as quarters of it. -/
theorem writtenTime_eq_iff_and_timeWritten_sixAttacks :
    ∃ t', sixAttacks.withNotes = .ok t' ∧ ∃ g ∈ sixAttacks.beats, g.TimeWritten sixAttacks t'
      ∧ g.span = 1 ∧ writtenTime g.count g.duration g.unit = 3 / 2
      ∧ ¬ (g.unit = compoundUnit ∨ g.count % 2 = 1 ∨ ∃ k, g.count = Nat.pow 2 k) := by
  obtain ⟨t', hnotes, hbeats⟩ := writtenTime_eq_iff_and_timeWritten.2.2 sixAttacks
    (by decide +kernel) (by decide +kernel)
  have hbeat : ∃ g ∈ sixAttacks.beats, g.span = 1 ∧ g.count = 6 ∧ g.unit ≠ compoundUnit
      ∧ splitTime g.count g.duration g.unit = 3 / 2 := by decide +kernel
  obtain ⟨g, hg, hspan, hcount, hunit, htime⟩ := hbeat
  refine ⟨t', hnotes, g, hg, hbeats g hg, hspan, ?_, ?_⟩
  · rw [writtenTime_eq_splitTime, htime]
  · have hpower : ¬ ∃ k, 6 = Nat.pow 2 k := mt floorPower_eq_self_iff.2 (by decide)
    rw [hcount]
    exact not_or.2 ⟨hunit, not_or.2 ⟨by decide, hpower⟩⟩

end LyricScore
