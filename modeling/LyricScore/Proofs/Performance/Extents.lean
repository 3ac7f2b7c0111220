/-
When notes sound, in closed form. A performance goes through the rows with a clock and a sounding
note, which holds lengthen one by one. The same can be said without either: the note of an attack
starts when all rows before it that take time have passed, and lasts over the attack and the holds
right behind it. Barlines, marks and the ends of blocks take no time, so they are not in the way.

# The clock

The proof compares the two from any state on. What the clock tells is where the closed form starts,
and the sounding note is still to be lengthened by the holds that come first.
-/
import LyricScore.Proofs.Pipeline.Soundness
import LyricScore.Proofs.Performance.Playing

namespace LyricScore

-- ======================================================= closed form

/-- When a note starts and how long it lasts. -/
def NoteEvent.extent (e : NoteEvent) : Rat × Rat :=
  (e.start, e.duration)

/-- A row that strikes a note. -/
def Row.strikes (r : Row) : Bool :=
  r.isAttack && r.hasPitch

/-- A row that can lengthen a note. -/
def Row.lengthens (r : Row) : Bool :=
  r.isHold && r.hasPitch

/-- How long a row lasts, in quarter notes: the rows of its beat share the beat's span evenly. The
span is the duration of the beat, or in the compound unit the written lengths of its rows. -/
def Table.timeOf (t : Table) (r : Row) : Rat :=
  let count := (t.filter fun q => decide (q.beatKey? = r.beatKey?)).length
  let unit := r.effectiveUnit
  let span :=
    if unit = compoundUnit then count * splitLength count r.effectiveDuration unit
    else r.effectiveDuration
  span / count * unit * 4

/-- The extents of the notes that a table strikes: the note of a row starts behind all rows before
it that take time, and lasts over the row and the holds right behind it. -/
def Table.extents (t : Table) : List (Rat × Rat) :=
  let rows := t.filter Row.isRhythm
  (rows.zipIdx.filter fun p => p.1.strikes).map fun p =>
    (sumTimes ((rows.take p.2).map t.timeOf),
      t.timeOf p.1 + sumTimes (((rows.drop (p.2 + 1)).takeWhile Row.lengthens).map t.timeOf))

/-- The extents of the notes that rows strike, from a time on. -/
def extentsFrom (time : Row → Rat) (now : Rat) : List Row → List (Rat × Rat)
  | [] => []
  | r :: rest =>
    let later := extentsFrom time (now + time r) rest
    if r.strikes then
      (now, time r + sumTimes ((rest.takeWhile Row.lengthens).map time)) :: later
    else later

theorem extentsFrom_of_strikes {time : Row → Rat} {now : Rat} {r : Row} {rest : List Row}
    (h : r.strikes = true) :
    extentsFrom time now (r :: rest)
      = (now, time r + sumTimes ((rest.takeWhile Row.lengthens).map time))
        :: extentsFrom time (now + time r) rest :=
  if_pos h

theorem extentsFrom_of_not_strikes {time : Row → Rat} {now : Rat} {r : Row} {rest : List Row}
    (h : r.strikes = false) :
    extentsFrom time now (r :: rest) = extentsFrom time (now + time r) rest :=
  if_neg (by simp [h])

/-- Both closed forms are the same. -/
theorem Table.extents_eq (t : Table) :
    t.extents = extentsFrom t.timeOf 0 (t.filter Row.isRhythm) := by
  -- the rows that were passed stand in front, and their number is the place of the next row
  suffices key : ∀ before rows : List Row,
      ((rows.zipIdx before.length).filter fun p => p.1.strikes).map (fun p =>
        (sumTimes (((before ++ rows).take p.2).map t.timeOf),
          t.timeOf p.1 + sumTimes ((((before ++ rows).drop (p.2 + 1)).takeWhile
            Row.lengthens).map t.timeOf)))
        = extentsFrom t.timeOf (sumTimes (before.map t.timeOf)) rows from
    key [] (t.filter Row.isRhythm)
  intro before rows
  induction rows generalizing before with
  | nil => rfl
  | cons r rows ih =>
      have hrest := ih (before ++ [r])
      rw [List.append_assoc, List.singleton_append, List.length_append, List.length_singleton,
        List.map_append, sumTimes_append] at hrest
      have hnow : sumTimes ([r].map t.timeOf) = t.timeOf r := add_zero _
      rw [hnow] at hrest
      have hdrop : (before ++ r :: rows).drop (before.length + 1) = rows := by
        rw [← List.singleton_append, ← List.append_assoc]
        exact List.drop_left' (by simp)
      rw [List.zipIdx_cons]
      cases hstrikes : r.strikes with
      | false =>
          rw [extentsFrom_of_not_strikes hstrikes, List.filter_cons_of_neg (by simp [hstrikes]),
            hrest]
      | true =>
          rw [extentsFrom_of_strikes hstrikes, List.filter_cons_of_pos (by simpa using hstrikes),
            List.map_cons, hrest, List.take_left, hdrop]

-- ============================================================== rows

theorem hasPitch_iff {r : Row} :
    r.hasPitch = true ↔ ∃ name octave, r.letter = some name ∧ r.octave = some octave := by
  unfold Row.hasPitch
  rw [Bool.and_eq_true, Option.isSome_iff_exists, Option.isSome_iff_exists]
  exact ⟨fun ⟨⟨name, hname⟩, octave, hoctave⟩ => ⟨name, octave, hname, hoctave⟩,
    fun ⟨name, octave, hname, hoctave⟩ => ⟨⟨name, hname⟩, octave, hoctave⟩⟩

-- ============================================================== order

theorem strikes_of_lengthens {r : Row} (h : r.lengthens = true) : r.strikes = false := by
  unfold Row.strikes
  rw [isAttack_of_isHold (Bool.and_eq_true_iff.1 h).1]
  rfl

/-- Holds strike nothing, so the next note is behind them. -/
theorem extentsFrom_dropWhile (time : Row → Rat) (now : Rat) (rows : List Row) :
    extentsFrom time now rows
      = extentsFrom time (now + sumTimes ((rows.takeWhile Row.lengthens).map time))
          (rows.dropWhile Row.lengthens) := by
  induction rows generalizing now with
  | nil => rfl
  | cons r rows ih =>
      by_cases hlengthens : r.lengthens = true
      · rw [List.takeWhile_cons_of_pos hlengthens, List.dropWhile_cons_of_pos hlengthens,
          List.map_cons, sumTimes, ← add_assoc, ← ih,
          extentsFrom_of_not_strikes (strikes_of_lengthens hlengthens)]
      · rw [List.takeWhile_cons_of_neg hlengthens, List.dropWhile_cons_of_neg hlengthens]
        exact congrArg (extentsFrom time · (r :: rows)) (add_zero now).symm

theorem sumTimes_nonneg {times : List Rat} (h : ∀ time ∈ times, 0 ≤ time) : 0 ≤ sumTimes times := by
  induction times with
  | nil => exact le_refl _
  | cons time times ih =>
      obtain ⟨htime, hrest⟩ := List.forall_mem_cons.1 h
      exact add_nonneg htime (ih hrest)

section Order

variable {time : Row → Rat} {rows : List Row}

theorem holds_nonneg (h : ∀ r ∈ rows, 0 < time r) :
    0 ≤ sumTimes ((rows.takeWhile Row.lengthens).map time) := by
  refine sumTimes_nonneg fun x hx => ?_
  obtain ⟨r, hr, rfl⟩ := List.mem_map.1 hx
  exact le_of_lt (h r ((List.takeWhile_sublist _).subset hr))

/-- No note starts before the clock, and every note lasts. -/
theorem extentsFrom_bounds (h : ∀ r ∈ rows, 0 < time r) {now : Rat} :
    ∀ e ∈ extentsFrom time now rows, now ≤ e.1 ∧ 0 < e.2 := by
  induction rows generalizing now with
  | nil => exact fun e he => absurd he List.not_mem_nil
  | cons r rows ih =>
      obtain ⟨hr, hrows⟩ := List.forall_mem_cons.1 h
      have hlater : ∀ e ∈ extentsFrom time (now + time r) rows, now ≤ e.1 ∧ 0 < e.2 := by
        intro e he
        obtain ⟨hstart, hlasts⟩ := ih hrows e he
        exact ⟨by linarith, hlasts⟩
      cases hstrikes : r.strikes with
      | false => rwa [extentsFrom_of_not_strikes hstrikes]
      | true =>
          rw [extentsFrom_of_strikes hstrikes]
          exact List.forall_mem_cons.2
            ⟨⟨le_refl _, add_pos_of_pos_of_nonneg hr (holds_nonneg hrows)⟩, hlater⟩

/-- No note goes on when a later one starts. -/
theorem extentsFrom_pairwise (h : ∀ r ∈ rows, 0 < time r) {now : Rat} :
    (extentsFrom time now rows).Pairwise fun e f => e.1 + e.2 ≤ f.1 := by
  induction rows generalizing now with
  | nil => exact List.Pairwise.nil
  | cons r rows ih =>
      obtain ⟨hr, hrows⟩ := List.forall_mem_cons.1 h
      cases hstrikes : r.strikes with
      | false =>
          rw [extentsFrom_of_not_strikes hstrikes]
          exact ih hrows
      | true =>
          rw [extentsFrom_of_strikes hstrikes]
          refine List.pairwise_cons.2 ⟨fun f hf => ?_, ih hrows⟩
          -- the holds that the note lasts over are in front of the next strike
          rw [extentsFrom_dropWhile] at hf
          rw [← add_assoc]
          have hleft : ∀ q ∈ rows.dropWhile Row.lengthens, 0 < time q := fun q hq =>
            hrows q ((List.dropWhile_sublist _).subset hq)
          exact (extentsFrom_bounds hleft f hf).1

end Order

theorem length_extentsFrom (time : Row → Rat) (now : Rat) (rows : List Row) :
    (extentsFrom time now rows).length = rows.countP Row.strikes := by
  induction rows generalizing now with
  | nil => rfl
  | cons r rows ih =>
      cases hstrikes : r.strikes with
      | false =>
          rw [extentsFrom_of_not_strikes hstrikes, ih, List.countP_cons_of_neg (by simp [hstrikes])]
      | true =>
          rw [extentsFrom_of_strikes hstrikes, List.length_cons, ih, List.countP_cons_of_pos hstrikes]

-- ============================================================== rows

namespace Performance

variable {groups : List BeatGroup} {s : State} {r : Row} {rest : List Row} {g : BeatGroup}

/-- A new key changes neither the clock nor what sounds. -/
theorem State.enter_eq (s : State) (r : Row) : ∃ a, s.enter r = { s with alterations := a } := by
  unfold State.enter
  cases r.key with
  | none => exact ⟨s.alterations, rfl⟩
  | some name => exact ⟨.ofKey name, rfl⟩

/-- A row that takes no time changes neither the clock nor what sounds. -/
theorem play_untimed (h : r.isRhythm = false) :
    ∃ a, play groups s (r :: rest) = play groups { s with alterations := a } rest := by
  have hbeat : Table.beatOf? groups r = none := by
    unfold Table.beatOf? Row.beatKey?
    rw [if_neg (by simp [h])]
    rfl
  obtain ⟨a, henter⟩ := s.enter_eq r
  rw [play]
  by_cases hsource : r.source = .lyric
  · rw [if_neg (by simp [hsource]), henter, hbeat]
    by_cases hbar : r.kind = .barline
    · exact ⟨a.barline, if_pos hbar⟩
    · exact ⟨a, if_neg hbar⟩
  · exact ⟨s.alterations, if_pos hsource⟩

/-- What a row that takes time does: it strikes a note, or it lengthens the one that sounds, or it
is silent. -/
theorem play_timed (h : r.isRhythm = true) (hbeat : Table.beatOf? groups r = some g)
    (hletter : ∀ name ∈ r.letter, ∃ l : Letter, name = l.name) :
    ∃ a,
      (r.strikes = true ∧ ∃ note : NoteEvent, note.extent = (s.time, g.step)
        ∧ play groups s (r :: rest)
          = (play groups ⟨a, some note, s.time + g.step⟩ rest).map (s.sounding.toList ++ ·))
      ∨ (r.lengthens = true ∧ ∃ note ∈ s.sounding, play groups s (r :: rest)
          = play groups
            ⟨a, some { note with duration := note.duration + g.step }, s.time + g.step⟩ rest)
      ∨ (r.strikes = false ∧ (r.lengthens = true → s.sounding = none) ∧ play groups s (r :: rest)
          = (play groups ⟨a, none, s.time + g.step⟩ rest).map (s.sounding.toList ++ ·)) := by
  obtain ⟨hsource, hkind⟩ : r.source = .lyric ∧ r.kind.isRhythm = true := by
    simpa [Row.isRhythm] using h
  have hbar : r.kind ≠ .barline := fun hbar => by
    rw [hbar] at hkind
    cases hkind
  obtain ⟨a, henter⟩ := s.enter_eq r
  rw [play, if_neg (by simp [hsource])]
  dsimp only
  rw [henter, if_neg hbar, hbeat]
  dsimp only
  split
  · next name octave hattack hname hoctave =>
    obtain ⟨l, rfl⟩ := hletter name hname
    have hknown : Letter.ofName l.name = .ok l := by cases l <;> rfl
    rw [hknown]
    exact ⟨_, Or.inl ⟨by simp [Row.strikes, Row.hasPitch, hattack, hname, hoctave], _, rfl, rfl⟩⟩
  · next note hattack hhold hname hoctave hsounding =>
    exact ⟨a, Or.inr (Or.inl ⟨by simp [Row.lengthens, Row.hasPitch, hhold, hname, hoctave], note,
      hsounding, rfl⟩)⟩
  · next hstrike hlengthen =>
    refine ⟨a, Or.inr (Or.inr ⟨?_, ?_, rfl⟩)⟩
    · refine Bool.eq_false_iff.2 fun hstrikes => ?_
      obtain ⟨hattack, hpitch⟩ := Bool.and_eq_true_iff.1 hstrikes
      obtain ⟨name, octave, hname, hoctave⟩ := hasPitch_iff.1 hpitch
      exact hstrike name octave hattack hname hoctave
    · intro hlengthens
      obtain ⟨hhold, hpitch⟩ := Bool.and_eq_true_iff.1 hlengthens
      obtain ⟨name, octave, hname, hoctave⟩ := hasPitch_iff.1 hpitch
      have hattack : r.isAttack = false := isAttack_of_isHold hhold
      refine Option.eq_none_iff_forall_ne_some.2 fun note hnote => ?_
      exact hlengthen name octave note hattack hhold hname hoctave hnote

/-- The notes from a state on: the one that sounds, with the holds that come first, and those of
the rows that strike. -/
theorem exists_play_extents {time : Row → Rat} {rows : List Row}
    (hbeat : ∀ r ∈ rows, r.isRhythm = true → ∃ g, Table.beatOf? groups r = some g ∧ g.step = time r)
    (hletter : ∀ r ∈ rows, ∀ name ∈ r.letter, ∃ l : Letter, name = l.name) :
    ∃ notes, play groups s rows = .ok notes ∧ notes.map NoteEvent.extent
      = (s.sounding.toList.map fun note => (note.start, note.duration
          + sumTimes (((rows.filter Row.isRhythm).takeWhile Row.lengthens).map time)))
        ++ extentsFrom time s.time (rows.filter Row.isRhythm) := by
  induction rows generalizing s with
  | nil =>
      refine ⟨_, rfl, ?_⟩
      cases s.sounding with
      | none => rfl
      | some note => exact congrArg (fun d => [(note.start, d)]) (add_zero note.duration).symm
  | cons r rows ih =>
      obtain ⟨hr, hrows⟩ := List.forall_mem_cons.1 hbeat
      obtain ⟨hname, hnames⟩ := List.forall_mem_cons.1 hletter
      cases hrhythm : r.isRhythm with
      | false =>
          obtain ⟨a, hplay⟩ := @play_untimed groups s r rows hrhythm
          rw [hplay, List.filter_cons_of_neg (by simp [hrhythm])]
          exact ih hrows hnames
      | true =>
          obtain ⟨g, hg, hstep⟩ := hr hrhythm
          rw [List.filter_cons_of_pos hrhythm]
          obtain ⟨a, hplay⟩ := @play_timed groups s r rows g hrhythm hg hname
          rw [hstep] at hplay
          -- a row that lengthens nothing ends what sounds
          have hends : (r.lengthens = true → s.sounding = none) →
              (s.sounding.toList.map fun note => (note.start, note.duration
                + sumTimes (((r :: rows.filter Row.isRhythm).takeWhile Row.lengthens).map time)))
              = s.sounding.toList.map NoteEvent.extent := by
            intro hsilent
            cases hlengthens : r.lengthens with
            | true => rw [hsilent hlengthens]; rfl
            | false =>
                rw [List.takeWhile_cons_of_neg (by simp [hlengthens])]
                exact List.map_congr_left fun note _ =>
                  congrArg (note.start, ·) (add_zero note.duration)
          rcases hplay with ⟨hstrikes, note, hnote, hplay⟩ | ⟨hlengthens, note, hnote, hplay⟩
            | ⟨hstrikes, hsilent, hplay⟩
          · obtain ⟨notes, hnotes, hextents⟩ := @ih ⟨a, some note, s.time + time r⟩ hrows hnames
            obtain ⟨hstart, hduration⟩ := Prod.mk.inj hnote
            rw [hplay, hnotes]
            refine ⟨_, rfl, ?_⟩
            rw [List.map_append, hextents, extentsFrom_of_strikes hstrikes, hends fun h => ?_]
            · rw [← hstart, ← hduration]
              rfl
            · rw [strikes_of_lengthens h] at hstrikes
              cases hstrikes
          · obtain ⟨notes, hnotes, hextents⟩ := @ih ⟨a, some { note with
              duration := note.duration + time r }, s.time + time r⟩ hrows hnames
            refine ⟨notes, hplay.trans hnotes, ?_⟩
            rw [hextents, extentsFrom_of_not_strikes (strikes_of_lengthens hlengthens),
              Option.mem_def.1 hnote, List.takeWhile_cons_of_pos hlengthens, List.map_cons,
              sumTimes]
            exact congrArg (fun d => (note.start, d) :: _) (add_assoc note.duration (time r) _)
          · obtain ⟨notes, hnotes, hextents⟩ := @ih ⟨a, none, s.time + time r⟩ hrows hnames
            rw [hplay, hnotes]
            refine ⟨_, rfl, ?_⟩
            rw [List.map_append, hextents, extentsFrom_of_not_strikes hstrikes, hends hsilent]
            rfl

end Performance

-- ============================================================== tables

theorem knownUnit_pos {unit : Rat} (h : unit ∈ knownUnits) : 0 < unit := by
  simp only [knownUnits, List.mem_cons, List.not_mem_nil, or_false] at h
  rcases h with rfl | rfl | rfl | rfl | rfl <;> norm_num

theorem BeatGroup.step_pos {g : BeatGroup} (hduration : 0 < g.duration) (hunit : 0 < g.unit) :
    0 < g.step := by
  have hcount : (0 : Rat) < g.count := by exact_mod_cast Nat.succ_pos g.others.length
  have hspan : 0 < g.span := by
    unfold BeatGroup.span
    split
    · exact mul_pos hcount (splitLength_pos _ _ hduration)
    · exact hduration
  exact mul_pos (mul_pos (div_pos hspan hcount) hunit) (by norm_num)

theorem length_filter_beatKey? {t : Table} {g : BeatGroup} (h : g ∈ t.beats) :
    (t.filter fun q => decide (q.beatKey? = some g.key)).length = g.count := by
  have hmembers := congrArg List.length (mem_beats h)
  rw [← List.countP_eq_length_filter] at hmembers
  rw [← List.countP_eq_length_filter, ← t.zipIdx_map_fst 0, List.countP_map]
  exact hmembers.symm

namespace Table.Renders

variable {s : Score} {t : Table} {r : Row}

/-- A row that takes time finds its beat. -/
theorem exists_beat (h : t.Renders s) (hs : s.WellFormed) (hr : r ∈ t)
    (hrhythm : r.isRhythm = true) :
    ∃ g ∈ t.beats, ∃ b ∈ s.timeline, g.Is b ∧ r.outline ∈ b.rows ∧ r.beatKey? = some g.key
      ∧ Table.beatOf? t.beats r = some g := by
  have houtline : r.outline ∈ s.timeline.flatMap TimedBeat.rows := by
    rw [← h.timed]
    exact List.mem_map_of_mem (List.mem_filter.2 ⟨hr, hrhythm⟩)
  obtain ⟨b, hb, hrow⟩ := List.mem_flatMap.1 houtline
  have hkeys := Score.nodup_timeline hs.one_le_duration
  have hare := h.timed.beats_are (fun b hb => (hs.beat hb).2) hkeys
  obtain ⟨g, hg, his⟩ := exists_of_forall₂ hare hb
  have hkey : r.beatKey? = some g.key := by
    rw [his.key]
    exact (TimedBeat.mem_rows hrow).1
  have hsame : t.beats.map (·.key) = s.timeline.map (·.key) := by
    rw [← List.forall₂_eq_eq_eq, List.forall₂_map_left_iff, List.forall₂_map_right_iff]
    exact hare.imp fun _ _ hgb => hgb.key
  refine ⟨g, hg, b, hb, his, hrow, hkey, ?_⟩
  unfold Table.beatOf?
  rw [hkey]
  exact find?_key (hsame ▸ hkeys) hg

/-- A row that takes time lasts for the time of one row of its beat, and that is not nothing. -/
theorem step_eq (h : t.Renders s) (hs : s.WellFormed) (hr : r ∈ t) (hrhythm : r.isRhythm = true) :
    (∃ g, Table.beatOf? t.beats r = some g ∧ g.step = t.timeOf r) ∧ 0 < t.timeOf r := by
  obtain ⟨g, hg, b, hb, his, hrow, hkey, hfind⟩ := h.exists_beat hs hr hrhythm
  obtain ⟨hlasts, -⟩ := hs.beat hb
  have hunit : g.unit = r.effectiveUnit := h.unitary.unit_eq hg hr (measureKey?_of_beatKey? hkey)
  have hduration : r.effectiveDuration = g.duration :=
    (TimedBeat.effectiveDuration_of_mem hrow hlasts).trans (his.duration_eq hlasts).symm
  have hstep : g.step = t.timeOf r := by
    unfold Table.timeOf BeatGroup.step BeatGroup.span BeatGroup.compound BeatGroup.length
    rw [hkey, length_filter_beatKey? hg, ← hunit, hduration]
    simp only [beq_iff_eq]
  refine ⟨⟨g, hfind, hstep⟩, ?_⟩
  rw [← hstep]
  refine BeatGroup.step_pos ?_ ?_
  · rw [his.duration_eq hlasts]
    exact_mod_cast hlasts
  · rw [hunit]
    exact knownUnit_pos (h.sound r hr).effectiveUnit_known

/-- The notes of a table are those of its rows that strike. -/
theorem exists_events (h : t.Renders s) (hs : s.WellFormed) :
    ∃ notes, t.events = .ok notes ∧ notes.map NoteEvent.extent = t.extents := by
  rw [t.extents_eq]
  exact Performance.exists_play_extents (fun r hr hrhythm => (h.step_eq hs hr hrhythm).1)
    fun r hr => (h.sound r hr).letter

/-- The notes of a table last, one behind the other. -/
theorem extents_ordered (h : t.Renders s) (hs : s.WellFormed) :
    (∀ e ∈ t.extents, 0 ≤ e.1 ∧ 0 < e.2) ∧ t.extents.Pairwise fun e f => e.1 + e.2 ≤ f.1 := by
  have hpos : ∀ r ∈ t.filter Row.isRhythm, 0 < t.timeOf r := by
    intro r hr
    obtain ⟨hr, hrhythm⟩ := List.mem_filter.1 hr
    exact (h.step_eq hs hr hrhythm).2
  rw [t.extents_eq]
  exact ⟨extentsFrom_bounds hpos, extentsFrom_pairwise hpos⟩

end Table.Renders

/-- The notes of a run, and when they sound. -/
theorem exists_events_of_run {text : String} {o : Options} {result : Result}
    (h : run (.text text) o = .ok result) :
    ∃ notes, result.table.events = .ok notes ∧ notes.map NoteEvent.extent = result.table.extents
      ∧ (∀ e ∈ notes, 0 ≤ e.start ∧ 0 < e.duration)
      ∧ notes.Pairwise fun e f => e.start + e.duration ≤ f.start := by
  obtain ⟨s, c, hparse, hcompletes, -⟩ := completes_of_run h
  have hs := Reader.wellFormed_of_parse hparse
  rcases renders_of_completes hs hcompletes with hnil | hrenders
  · rw [hnil]
    exact ⟨[], rfl, rfl, fun e he => absurd he List.not_mem_nil, List.Pairwise.nil⟩
  obtain ⟨notes, hnotes, hextents⟩ := hrenders.exists_events hs
  obtain ⟨hpos, hordered⟩ := hrenders.extents_ordered hs
  rw [← hextents] at hpos hordered
  exact ⟨notes, hnotes, hextents, fun e he => hpos _ (List.mem_map_of_mem he),
    List.pairwise_map.1 hordered⟩

end LyricScore
