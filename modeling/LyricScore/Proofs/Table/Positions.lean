/-
Where the beats of a score stand in its table. Rows are put into beats by a key that is computed,
block, measure and beat, and not by their neighbours. Two beats of a score that came to one key
would run together unnoticed. They never do: every beat of the score is a beat of the table, in the
same order and made of the same segments.

# The place of a beat

A beat is written in a block, behind some items of its line. Its measure goes by the barlines among
these items, and its beat by the durations of the beats behind the last barline. `WrittenBeat` says
so without a running count; the layout has one, and the two agree at every item.

# Neighbours

The rows of a beat are a stretch of the table. No row outside the stretch has their key, since the
beat of the table has no more rows than the stretch. So the beat is the stretch.
-/
import LyricScore.Proofs.Table.Accounts
import Mathlib.Data.List.DropRight

namespace LyricScore

-- ============================================================ written

/-- The beat that an item of a lyric line is. -/
def LyricItem.beat? : LyricItem → Option LyricBeat
  | .beat b => some b
  | .barline | .unit _ => none

/-- The measure behind some items of a lyric line. Measures are counted from zero in a block with a
counter, and from one otherwise. -/
def measureBehind (counter : Option Int) (before : List LyricItem) : Int :=
  (if counter.isSome then 0 else 1) + before.count .barline

/-- The beats behind the last barline of some items. -/
def beatsInMeasure (before : List LyricItem) : List LyricBeat :=
  (before.rtakeWhile (· != .barline)).filterMap LyricItem.beat?

/-- A beat of a score as it is written: the number of its block, the counter of the block and the
items before the beat in its line. -/
structure WrittenBeat where
  number : Nat
  counter : Option Int
  before : List LyricItem
  beat : LyricBeat

/-- The key of a beat: its block, its measure, and one more than what the earlier beats of its
measure last. -/
def WrittenBeat.key (w : WrittenBeat) : BeatKey :=
  ⟨w.number, measureBehind w.counter w.before,
    1 + ((beatsInMeasure w.before).map (·.duration)).sum⟩

/-- The beats of a numbered block, in order. -/
def Block.writtenBeats (number : Nat) (b : Block) : List WrittenBeat :=
  b.lyrics.zipIdx.filterMap fun p =>
    p.1.beat?.map fun beat => ⟨number, b.counter, b.lyrics.take p.2, beat⟩

/-- The beats of a score, in order. -/
def Score.writtenBeats (s : Score) : List WrittenBeat :=
  (s.blocks.zipIdx 1).flatMap fun b => b.1.writtenBeats b.2

/-- A beat of a table and the beat of the score that it is. -/
structure BeatGroup.Gathers (t : Table) (g : BeatGroup) (w : WrittenBeat) : Prop where
  key : g.key = w.key
  /-- The places follow each other, one for each segment. -/
  indices : g.indices = List.range' g.first.2 w.beat.segments.length
  /-- The rows are those of the table at these places. -/
  rows : ∀ p ∈ g.members, t[p.2]? = some p.1
  /-- The rows are the segments, with their numbers from one on and the duration of the beat. -/
  segments : g.members.map (fun p => (p.1.kind, p.1.raw, p.1.subdivision, p.1.duration))
    = (w.beat.segments.zipIdx 1).map fun s =>
        (s.1.kind, s.1.text, some (s.2 : Int), some (w.beat.duration : Rat))

-- ============================================================= counts

/-- A written beat at the place that the layout gives it. -/
def WrittenBeat.timed (w : WrittenBeat) : TimedBeat :=
  ⟨w.key, w.counter, w.beat⟩

theorem measureBehind_concat (counter : Option Int) (before : List LyricItem) (item : LyricItem) :
    measureBehind counter (before ++ [item])
      = measureBehind counter before + if item = .barline then 1 else 0 := by
  unfold measureBehind
  rw [List.count_append, List.count_singleton]
  by_cases h : item = .barline
  · simp [h, Int.add_assoc]
  · simp [h]

theorem beatsInMeasure_barline (before : List LyricItem) :
    beatsInMeasure (before ++ [.barline]) = [] := by
  unfold beatsInMeasure
  rw [List.rtakeWhile_concat_neg _ _ _ (by simp)]
  rfl

theorem beatsInMeasure_concat (before : List LyricItem) {item : LyricItem} (h : item ≠ .barline) :
    beatsInMeasure (before ++ [item]) = beatsInMeasure before ++ item.beat?.toList := by
  unfold beatsInMeasure
  rw [List.rtakeWhile_concat_pos _ _ _ (by simpa using h), List.filterMap_append,
    List.filterMap_cons]
  cases item.beat? <;> rfl

/-- The running count of the layout comes to the same. -/
theorem Block.timeline_eq (number : Nat) (b : Block) :
    b.timeline number = (b.writtenBeats number).map WrittenBeat.timed := by
  -- the items that were passed stand in front, and the layout has counted them
  suffices key : ∀ before rest : List LyricItem,
      lyricBeats number b.counter (measureBehind b.counter before)
          (1 + ((beatsInMeasure before).map (·.duration)).sum) rest
        = ((rest.zipIdx before.length).filterMap fun p => p.1.beat?.map fun beat =>
            (⟨number, b.counter, (before ++ rest).take p.2, beat⟩ : WrittenBeat)).map
              WrittenBeat.timed by
    have hstart : measureBehind b.counter [] = b.firstMeasure := Int.add_zero _
    have hall := key [] b.lyrics
    rw [hstart] at hall
    exact hall
  intro before rest
  induction rest generalizing before with
  | nil => rfl
  | cons item rest ih =>
      have hstep := ih (before ++ [item])
      rw [List.append_assoc, List.singleton_append, List.length_append, List.length_singleton,
        measureBehind_concat] at hstep
      rw [List.zipIdx_cons, List.filterMap_cons, List.take_left]
      cases item with
      | barline =>
          rw [beatsInMeasure_barline] at hstep
          exact hstep
      | unit m =>
          rw [beatsInMeasure_concat before (by simp), if_neg (by simp), Int.add_zero] at hstep
          rwa [show (LyricItem.unit m).beat?.toList = [] from rfl, List.append_nil] at hstep
      | beat beat =>
          rw [beatsInMeasure_concat before (by simp), if_neg (by simp), Int.add_zero,
            List.map_append, List.sum_append, ← Int.add_assoc] at hstep
          have hduration : ((LyricItem.beat beat).beat?.toList.map (·.duration)).sum
              = beat.duration := Int.add_zero _
          rw [hduration] at hstep
          exact congrArg (_ :: ·) hstep

theorem Score.timeline_eq (s : Score) : s.timeline = s.writtenBeats.map WrittenBeat.timed := by
  unfold Score.timeline Score.writtenBeats
  rw [List.map_flatMap]
  exact List.flatMap_congr fun b _ => Block.timeline_eq b.2 b.1

-- ========================================================== stretches

theorem rows_infix_lyricRows {block : Int} {counter : Option Int} {measure beat : Int}
    {items : List LyricItem} {b : TimedBeat} (h : b ∈ lyricBeats block counter measure beat items) :
    b.rows <:+: lyricRows block counter measure beat items := by
  induction items generalizing measure beat with
  | nil => cases h
  | cons item rest ih =>
      cases item with
      | barline => exact (ih h).trans (List.suffix_cons _ _).isInfix
      | unit m => exact (ih h).trans (List.suffix_cons _ _).isInfix
      | beat b' =>
          rcases List.mem_cons.1 h with rfl | h
          · exact (List.prefix_append _ _).isInfix
          · exact (ih h).trans (List.suffix_append _ _).isInfix

/-- The rows of a beat are a stretch of the table. -/
theorem Score.rows_infix_layout {s : Score} {b : TimedBeat} (h : b ∈ s.timeline) :
    b.rows <:+: s.layout := by
  obtain ⟨block, hblock, hb⟩ := List.mem_flatMap.1 h
  obtain ⟨pitches, hrows, -⟩ := block.1.rows_eq block.2
  have hline : b.rows <:+: block.1.rows block.2 := by
    rw [hrows]
    exact (rows_infix_lyricRows hb).trans (List.prefix_append _ _).isInfix
  exact hline.trans (List.infix_of_mem_flatten (List.mem_map.2 ⟨block, hblock, rfl⟩))

/-- A beat that has no more rows than a stretch of its own rows is that stretch. -/
theorem BeatGroup.indices_of_stretch {t : Table} {g : BeatGroup} (hg : g ∈ t.beats) {rows : List Row}
    (hstretch : rows <:+: t) (hkey : ∀ r ∈ rows, r.beatKey? = some g.key)
    (hcount : g.count = rows.length) : g.indices = List.range' g.first.2 rows.length := by
  obtain ⟨front, back, rfl⟩ := hstretch
  have hmembers := mem_beats hg
  rw [List.zipIdx_append, List.zipIdx_append, List.filter_append, List.filter_append] at hmembers
  have hown : (rows.zipIdx (0 + front.length)).filter
      (fun p => decide (p.1.beatKey? = some g.key)) = rows.zipIdx (0 + front.length) :=
    List.filter_eq_self.2 fun p hp => decide_eq_true (hkey p.1 (List.fst_mem_of_mem_zipIdx hp))
  rw [hown] at hmembers
  -- the stretch has all the rows there are, so nothing is left of what stands around it
  generalize (front.zipIdx).filter _ = ahead at hmembers
  generalize (back.zipIdx _).filter _ = behind at hmembers
  have hlength := congrArg List.length hmembers
  have hall : g.members.length = rows.length := hcount
  rw [List.length_append, List.length_append, List.length_zipIdx, hall] at hlength
  have hahead : ahead = [] := List.eq_nil_of_length_eq_zero (by omega)
  have hbehind : behind = [] := List.eq_nil_of_length_eq_zero (by omega)
  rw [hahead, hbehind, List.nil_append, List.append_nil] at hmembers
  have hindices : g.indices = List.range' (0 + front.length) rows.length := by
    unfold BeatGroup.indices
    rw [hmembers, List.zipIdx_map_snd]
  have hfirst : g.first.2 = 0 + front.length := by
    have hhead := congrArg List.head? hindices
    cases rows with
    | nil => cases hcount
    | cons r rows => exact Option.some.inj hhead
  rw [hindices, hfirst]

/-- A beat of the table that is a beat of the score is the stretch of its rows. -/
theorem BeatGroup.Is.gathers {t : Table} {g : BeatGroup} {w : WrittenBeat} (h : g.Is w.timed)
    (hg : g ∈ t.beats) (hstretch : w.timed.rows <:+: t) : g.Gathers t w where
  key := h.key
  indices := by
    have hkey : ∀ r ∈ w.timed.rows, r.beatKey? = some g.key := fun r hr => by
      rw [h.key]
      exact (TimedBeat.mem_rows hr).1
    have hindices := BeatGroup.indices_of_stretch hg hstretch hkey h.count_eq
    rwa [TimedBeat.length_rows] at hindices
  rows p hp := List.mk_mem_zipIdx_iff_getElem?.1 (Table.mem_beat hg hp).1
  segments := by
    have hrows := congrArg
      (List.map fun r : Row => (r.kind, r.raw, r.subdivision, r.duration)) h.rows
    unfold TimedBeat.rows LyricBeat.rows at hrows
    rw [List.map_map, List.map_map] at hrows
    exact hrows

-- =========================================================== measures

/-- No row of a block is in an earlier measure than its first one. -/
theorem Block.measure_of_mem_rows {number : Int} {b : Block} {r : Row} (h : r ∈ b.rows number) :
    ∃ m, r.measure = some m ∧ b.firstMeasure ≤ m := by
  cases Block.lays_of_mem_rows h with
  | opening => exact ⟨_, rfl, Int.le_refl _⟩
  | lyricBar hmeasure | pitchBar hmeasure => exact ⟨_, rfl, hmeasure⟩
  | unit hmeasure | segment hmeasure | key hmeasure | pitch hmeasure => exact ⟨_, rfl, hmeasure⟩

/-- Only blocks with a counter have a measure zero. -/
theorem Score.counter_of_measure_zero {s : Score} {r : Row} (hr : r ∈ s.layout)
    (h : r.measure = some 0) :
    ∃ (number : Nat) (b : Block), s.blocks[number]? = some b ∧ r.block = number + 1
      ∧ b.counter.isSome = true := by
  obtain ⟨⟨b, number⟩, hb, hrow⟩ := List.mem_flatMap.1 hr
  obtain ⟨hlow, hblock⟩ := List.mk_mem_zipIdx_iff_le_and_getElem?_sub.1 hb
  obtain ⟨m, hm, hle⟩ := Block.measure_of_mem_rows hrow
  obtain rfl : m = 0 := Option.some.inj (hm.symm.trans h)
  refine ⟨number - 1, b, hblock, ?_, ?_⟩
  · rw [Block.block_of_mem_rows hrow]
    omega
  · cases hcounter : b.counter with
    | some counter => rfl
    | none =>
        simp only [Block.firstMeasure, hcounter] at hle
        exact absurd hle (by decide)

/-- Two rows in the order of their measures. -/
def Row.InOrder (a b : Row) : Prop :=
  ∃ m m', a.measure = some m ∧ b.measure = some m' ∧ m ≤ m'

theorem lyricRows_inOrder (block : Int) (counter : Option Int) (measure beat : Int)
    (items : List LyricItem) :
    (lyricRows block counter measure beat items).Pairwise Row.InOrder := by
  induction items generalizing measure beat with
  | nil => exact List.Pairwise.nil
  | cons item rest ih =>
      cases item with
      | barline =>
          refine List.pairwise_cons.2 ⟨fun r hr => ?_, ih _ _⟩
          obtain ⟨-, -, m, hm, hle⟩ := mem_lyricRows hr
          exact ⟨measure, m, rfl, hm, by omega⟩
      | unit mark =>
          refine List.pairwise_cons.2 ⟨fun r hr => ?_, ih _ _⟩
          obtain ⟨-, -, m, hm, hle⟩ := mem_lyricRows hr
          exact ⟨measure, m, rfl, hm, hle⟩
      | beat b =>
          have hown : ∀ r ∈ b.rows block counter measure beat, r.measure = some measure :=
            fun r hr => (mem_beat_rows hr).2.2.2.1
          refine List.pairwise_append.2 ⟨?_, ih _ _, fun r hr r' hr' => ?_⟩
          · refine List.pairwise_iff_forall_sublist.2 fun {r r'} hsub => ?_
            exact ⟨measure, measure, hown r (hsub.subset (by simp)), hown r' (hsub.subset (by simp)),
              Int.le_refl _⟩
          · obtain ⟨-, -, m, hm, hle⟩ := mem_lyricRows hr'
            exact ⟨measure, m, hown r hr, hm, hle⟩

/-- Along the lyric rows of a block the measures never go back. -/
theorem Score.layout_inOrder (s : Score) :
    s.layout.Pairwise fun a b =>
      a.source = .lyric → b.source = .lyric → a.block = b.block → a.InOrder b := by
  refine Score.layout_pairwise (fun b _ number => ?_) (fun a r hsource _ => ?_) (fun a r hlt => ?_)
  · exact (lyricRows_inOrder _ _ _ _ _).imp fun h _ _ _ => h
  · intro _ hlyric
    rw [hsource] at hlyric
    cases hlyric
  · exact fun _ _ heq => absurd heq (Int.ne_of_lt hlt)

-- ============================================================== beats

/-- How the beats of a score stand in its table. -/
structure Score.BeatsInPlace (s : Score) : Prop where
  /-- The beats of the table are those of the score, one by one and in order. -/
  gathered : List.Forall₂ (BeatGroup.Gathers s.layout) s.layout.beats s.writtenBeats
  /-- No two beats of the score have one key. -/
  apart : (s.writtenBeats.map WrittenBeat.key).Nodup
  /-- Only blocks with a counter have a measure zero. -/
  pickups : ∀ r ∈ s.layout, r.measure = some 0 →
    ∃ (number : Nat) (b : Block), s.blocks[number]? = some b ∧ r.block = number + 1
      ∧ b.counter.isSome = true
  /-- Along the lyric rows of a block the measures never go back. -/
  forward : s.layout.Pairwise fun a b =>
    a.source = .lyric → b.source = .lyric → a.block = b.block → a.InOrder b

/-- Every beat with segments that lasts at least one beat stands in its own place. -/
theorem Score.beatsInPlace_of_lasting {s : Score}
    (hs : ∀ b ∈ s.blocks, ∀ beat, LyricItem.beat beat ∈ b.lyrics →
      beat.segments ≠ [] ∧ 1 ≤ beat.duration) : s.BeatsInPlace := by
  have hlasts : ∀ b ∈ s.blocks, ∀ beat, LyricItem.beat beat ∈ b.lyrics → 1 ≤ beat.duration :=
    fun b hb beat hbeat => (hs b hb beat hbeat).2
  have hkeys := Score.nodup_timeline hlasts
  have hne : ∀ b ∈ s.timeline, b.rows ≠ [] := by
    intro b hb
    obtain ⟨number, block, hblock, -, -, hbeat⟩ := mem_timeline hlasts hb
    exact TimedBeat.rows_ne_nil (hs block (List.mem_of_getElem? hblock) b.beat hbeat).1
  have hare := s.layout_times.beats_are hne hkeys
  rw [s.timeline_eq, List.map_map] at hkeys
  rw [s.timeline_eq, List.forall₂_map_right_iff, List.forall₂_iff_zip] at hare
  refine ⟨List.forall₂_iff_zip.2 ⟨hare.1, fun {g w} hgw => ?_⟩, hkeys,
    fun r hr => Score.counter_of_measure_zero hr, s.layout_inOrder⟩
  have his := hare.2 hgw
  obtain ⟨hg, hw⟩ := List.of_mem_zip hgw
  have htimed : w.timed ∈ s.timeline := s.timeline_eq ▸ List.mem_map_of_mem hw
  exact his.gathers hg (Score.rows_infix_layout htimed)

/-- A pickup of two beats with a unit mark between them, and a block whose first beat lasts for
three behind a barline. -/
def pickupScore : Score :=
  { blocks :=
      [{ lyrics := [.beat ⟨[.syllable "la"], 2⟩, .unit ⟨8, false⟩,
           .beat ⟨[.marker .tie, .syllable "lu", .marker .rest], 1⟩, .barline,
           .beat ⟨[.marker .attack], 1⟩]
         pitches := ⟨none, [.pitch ⟨"c", .plain, ""⟩]⟩
         counter := some 2 },
       { lyrics := [.barline, .beat ⟨[.syllable "la", .marker .tie], 3⟩,
           .beat ⟨[.marker .hold], 1⟩]
         pitches := ⟨none, []⟩
         counter := none }]
    title := "" }

example : pickupScore.layout.beats.map (fun g => (g.key, g.indices))
    = [(⟨1, 0, 1⟩, [0]), (⟨1, 0, 3⟩, [2, 3, 4]), (⟨1, 1, 1⟩, [6]), (⟨2, 2, 1⟩, [9, 10]),
       (⟨2, 2, 4⟩, [11])] := by
  decide +kernel

theorem Score.beatsInPlace_of_lasting_pickupScore :
    (∀ b ∈ pickupScore.blocks, ∀ beat, LyricItem.beat beat ∈ b.lyrics →
        beat.segments ≠ [] ∧ 1 ≤ beat.duration)
      ∧ pickupScore.BeatsInPlace := by
  have hs : ∀ b ∈ pickupScore.blocks, ∀ beat, LyricItem.beat beat ∈ b.lyrics →
      beat.segments ≠ [] ∧ 1 ≤ beat.duration := by
    simp [pickupScore]
  exact ⟨hs, Score.beatsInPlace_of_lasting hs⟩

end LyricScore
