/-
The beats of a score in time. The layout puts each beat of a lyric line at a block, a measure and a
beat of that measure; the rows that take time are the rows of these beats, one beat behind the
other. No two beats stand at one place, because each lasts at least one beat.

So whatever is counted over the rows of a table can be counted over the beats of its score: the
beats of the table are those of the score, and a measure of the table holds the beats that the
score puts there.
-/
import LyricScore.Proofs.Sequence
import LyricScore.Proofs.Table.Meters
import Mathlib.Data.List.Basic

namespace LyricScore

-- ========================================================== timelines

/-- A beat of a score at its place, with the counter of its block. -/
structure TimedBeat where
  key : BeatKey
  counter : Option Int
  beat : LyricBeat

/-- The rows of a beat. -/
def TimedBeat.rows (b : TimedBeat) : List Row :=
  b.beat.rows b.key.block b.counter b.key.measure b.key.beat

/-- The beats of a lyric line, from a measure and a beat on. -/
def lyricBeats (block : Int) (counter : Option Int) (measure beat : Int) :
    List LyricItem → List TimedBeat
  | [] => []
  | .barline :: rest => lyricBeats block counter (measure + 1) 1 rest
  | .unit _ :: rest => lyricBeats block counter measure beat rest
  | .beat b :: rest =>
    ⟨⟨block, measure, beat⟩, counter, b⟩ :: lyricBeats block counter measure (beat + b.duration) rest

/-- The beats of a block. -/
def Block.timeline (number : Int) (b : Block) : List TimedBeat :=
  lyricBeats number b.counter b.firstMeasure 1 b.lyrics

/-- The beats of a score. -/
def Score.timeline (s : Score) : List TimedBeat :=
  (s.blocks.zipIdx 1).flatMap fun b => b.1.timeline b.2

theorem lyricRows_timed (block : Int) (counter : Option Int) (measure beat : Int)
    (items : List LyricItem) :
    (lyricRows block counter measure beat items).filter Row.isRhythm
      = (lyricBeats block counter measure beat items).flatMap TimedBeat.rows := by
  induction items generalizing measure beat with
  | nil => rfl
  | cons item rest ih =>
      cases item with
      | barline => exact ih (measure + 1) 1
      | unit m => exact ih measure beat
      | beat b =>
          have hrows : (b.rows block counter measure beat).filter Row.isRhythm
              = b.rows block counter measure beat :=
            List.filter_eq_self.2 fun r hr => (mem_beat_rows hr).2.2.1
          rw [lyricRows, lyricBeats, List.filter_append, hrows, ih, List.flatMap_cons]
          rfl

theorem Block.rows_timed (number : Int) (b : Block) :
    (b.rows number).filter Row.isRhythm = (b.timeline number).flatMap TimedBeat.rows := by
  obtain ⟨pitches, hrows, hpitch⟩ := b.rows_eq number
  have hsilent : pitches.filter Row.isRhythm = [] := by
    refine List.filter_eq_nil_iff.2 fun r hr => ?_
    simp [Row.isRhythm, (hpitch r hr).1]
  rw [hrows, List.filter_append, hsilent, List.append_nil, lyricRows_timed]
  rfl

/-- The rows of a score that take time are those of its beats. -/
theorem Score.layout_timed (s : Score) :
    s.layout.filter Row.isRhythm = s.timeline.flatMap TimedBeat.rows := by
  unfold Score.layout Score.timeline
  rw [List.filter_flatMap, List.flatMap_assoc]
  congr 1
  funext b
  exact Block.rows_timed b.2 b.1

-- ============================================================= places

/-- The order of beats in time. -/
def TimedBeat.Before (a b : TimedBeat) : Prop :=
  a.key.block < b.key.block ∨ a.key.block = b.key.block
    ∧ (a.key.measure < b.key.measure ∨ a.key.measure = b.key.measure ∧ a.key.beat < b.key.beat)

theorem mem_lyricBeats {block : Int} {counter : Option Int} {measure beat : Int}
    {items : List LyricItem} (hitems : ∀ b, LyricItem.beat b ∈ items → 1 ≤ b.duration) {b : TimedBeat}
    (h : b ∈ lyricBeats block counter measure beat items) :
    b.key.block = block ∧ b.counter = counter ∧ .beat b.beat ∈ items
      ∧ (measure < b.key.measure ∨ measure = b.key.measure ∧ beat ≤ b.key.beat) := by
  induction items generalizing measure beat with
  | nil => cases h
  | cons item rest ih =>
      have hrest : ∀ b, LyricItem.beat b ∈ rest → 1 ≤ b.duration := fun b hb =>
        hitems b (List.mem_cons_of_mem _ hb)
      cases item with
      | barline =>
          obtain ⟨hblock, hcounter, hmem, hplace⟩ := ih hrest h
          exact ⟨hblock, hcounter, List.mem_cons_of_mem _ hmem, by omega⟩
      | unit m =>
          obtain ⟨hblock, hcounter, hmem, hplace⟩ := ih hrest h
          exact ⟨hblock, hcounter, List.mem_cons_of_mem _ hmem, hplace⟩
      | beat b' =>
          rcases List.mem_cons.1 h with rfl | h
          · exact ⟨rfl, rfl, List.mem_cons_self, Or.inr ⟨rfl, Int.le_refl _⟩⟩
          · have hduration := hitems b' List.mem_cons_self
            obtain ⟨hblock, hcounter, hmem, hplace⟩ := ih hrest h
            exact ⟨hblock, hcounter, List.mem_cons_of_mem _ hmem, by omega⟩

/-- A beat of a score lies in one of its blocks. -/
theorem mem_timeline {s : Score}
    (hs : ∀ b ∈ s.blocks, ∀ beat, LyricItem.beat beat ∈ b.lyrics → 1 ≤ beat.duration) {b : TimedBeat}
    (h : b ∈ s.timeline) :
    ∃ (number : Nat) (block : Block), s.blocks[number]? = some block ∧ b.key.block = number + 1
      ∧ b.counter = block.counter ∧ .beat b.beat ∈ block.lyrics := by
  obtain ⟨⟨block, number⟩, hblock, hb⟩ := List.mem_flatMap.1 h
  obtain ⟨hle, hget⟩ := List.mem_zipIdx_iff_le_and_getElem?_sub.1 hblock
  obtain ⟨hkey, hcounter, hbeat, -⟩ :=
    mem_lyricBeats (hs block (List.fst_mem_of_mem_zipIdx hblock)) hb
  refine ⟨number - 1, block, hget, ?_, hcounter, hbeat⟩
  rw [hkey]
  dsimp only at hle ⊢
  omega

theorem lyricBeats_pairwise (block : Int) (counter : Option Int) (measure beat : Int)
    {items : List LyricItem} (hitems : ∀ b, LyricItem.beat b ∈ items → 1 ≤ b.duration) :
    (lyricBeats block counter measure beat items).Pairwise TimedBeat.Before := by
  induction items generalizing measure beat with
  | nil => exact List.Pairwise.nil
  | cons item rest ih =>
      have hrest : ∀ b, LyricItem.beat b ∈ rest → 1 ≤ b.duration := fun b hb =>
        hitems b (List.mem_cons_of_mem _ hb)
      cases item with
      | barline => exact ih _ _ hrest
      | unit m => exact ih _ _ hrest
      | beat b =>
          have hduration := hitems b List.mem_cons_self
          refine List.pairwise_cons.2 ⟨fun b' hb' => ?_, ih _ _ hrest⟩
          obtain ⟨hblock, -, -, hplace⟩ := mem_lyricBeats hrest hb'
          refine Or.inr ⟨hblock.symm, ?_⟩
          dsimp only
          omega

/-- The beats of a score stand in time one behind the other. -/
theorem Score.timeline_pairwise {s : Score}
    (hs : ∀ b ∈ s.blocks, ∀ beat, LyricItem.beat beat ∈ b.lyrics → 1 ≤ beat.duration) :
    s.timeline.Pairwise TimedBeat.Before := by
  suffices key : ∀ (bs : List Block) (n : Nat), (∀ b ∈ bs, b ∈ s.blocks) →
      (∀ b ∈ (bs.zipIdx n).flatMap (fun b => b.1.timeline b.2), (n : Int) ≤ b.key.block)
        ∧ ((bs.zipIdx n).flatMap fun b => b.1.timeline b.2).Pairwise TimedBeat.Before from
    (key s.blocks 1 fun _ hb => hb).2
  intro bs
  induction bs with
  | nil => exact fun n _ => ⟨fun b hb => absurd hb List.not_mem_nil, List.Pairwise.nil⟩
  | cons block bs ih =>
      intro n hbs
      obtain ⟨hblock, hbs⟩ := List.forall_mem_cons.1 hbs
      obtain ⟨hmore, hpair⟩ := ih (n + 1) hbs
      have hown : ∀ b ∈ block.timeline n, b.key.block = n := fun b hb =>
        (mem_lyricBeats (hs block hblock) hb).1
      rw [List.zipIdx_cons, List.flatMap_cons]
      refine ⟨List.forall_mem_append.2 ⟨fun b hb => Int.le_of_eq (hown b hb).symm, fun b hb => ?_⟩,
        List.pairwise_append.2 ⟨lyricBeats_pairwise _ _ _ _ (hs block hblock), hpair,
          fun a ha b hb => Or.inl ?_⟩⟩
      · have := hmore b hb
        omega
      · have := hmore b hb
        rw [hown a ha]
        omega

theorem Score.nodup_timeline {s : Score}
    (hs : ∀ b ∈ s.blocks, ∀ beat, LyricItem.beat beat ∈ b.lyrics → 1 ≤ beat.duration) :
    (s.timeline.map (·.key)).Nodup := by
  refine List.pairwise_map.2 ((Score.timeline_pairwise hs).imp fun {a b} hbefore heq => ?_)
  rcases hbefore with hlt | ⟨-, hlt | ⟨-, hlt⟩⟩
  · rw [heq] at hlt
    exact Int.lt_irrefl _ hlt
  · rw [heq] at hlt
    exact Int.lt_irrefl _ hlt
  · rw [heq] at hlt
    exact Int.lt_irrefl _ hlt

-- ============================================================= tables

/-- A table whose rows that take time are those of some beats. -/
def Table.Times (beats : List TimedBeat) (t : Table) : Prop :=
  (t.filter Row.isRhythm).map Row.outline = beats.flatMap TimedBeat.rows

theorem Score.layout_times (s : Score) : s.layout.Times s.timeline := by
  unfold Table.Times
  rw [s.layout_timed, List.map_flatMap]
  refine List.flatMap_congr fun b _ => ?_
  unfold TimedBeat.rows LyricBeat.rows
  rw [List.map_map]
  rfl

theorem TimedBeat.length_rows (b : TimedBeat) : b.rows.length = b.beat.segments.length := by
  simp [TimedBeat.rows, LyricBeat.rows]

theorem TimedBeat.rows_ne_nil {b : TimedBeat} (h : b.beat.segments ≠ []) : b.rows ≠ [] := by
  unfold TimedBeat.rows LyricBeat.rows
  simpa using h

theorem TimedBeat.mem_rows {b : TimedBeat} {r : Row} (h : r ∈ b.rows) :
    r.beatKey? = some b.key ∧ r.measureKey? = some b.key.inMeasure ∧ r.pickup = b.counter := by
  obtain ⟨-, hblock, hrhythm, hmeasure, hbeat, -⟩ := mem_beat_rows h
  have hkey : r.beatKey? = some b.key := beatKey?_eq_some.2 ⟨hrhythm, hblock, hmeasure, hbeat⟩
  refine ⟨hkey, measureKey?_of_beatKey? hkey, ?_⟩
  obtain ⟨s, -, rfl⟩ := List.mem_map.1 h
  rfl

/-- Beats that stand at different places are the classes of their rows. -/
theorem classes_rows {beats : List TimedBeat} (hne : ∀ b ∈ beats, b.rows ≠ [])
    (hkeys : (beats.map (·.key)).Nodup) :
    classes Row.beatKey? (beats.flatMap TimedBeat.rows) = beats.map fun b => (b.key, b.rows) := by
  refine classes_eq_of_parts ?_ (fun p hp => ?_) (by rwa [List.map_map])
  · unfold keyed
    rw [List.filterMap_flatMap, List.flatMap_map]
    refine List.flatMap_congr fun b hb => ?_
    rw [← List.filterMap_eq_map]
    refine List.filterMap_congr fun r hr => ?_
    rw [(TimedBeat.mem_rows hr).1]
    rfl
  · obtain ⟨b, hb, rfl⟩ := List.mem_map.1 hp
    exact hne b hb

namespace Table.Times

variable {t : Table} {beats : List TimedBeat}

theorem outlines_timed (h : t.Times beats) :
    t.timed.map (fun p => p.1.outline) = beats.flatMap TimedBeat.rows := by
  rw [← h, ← map_fst_timed, List.map_map]
  rfl

/-- The beats of the table are the given ones. -/
theorem map_beats (h : t.Times beats) (hne : ∀ b ∈ beats, b.rows ≠ [])
    (hkeys : (beats.map (·.key)).Nodup) :
    t.beats.map (fun g => (g.key, g.members.map fun p => p.1.outline))
      = beats.map fun b => (b.key, b.rows) := by
  have htimed : ∀ (p : PlacedRow) (k : BeatKey), p.1.beatKey? = some k → p.1.isRhythm = true :=
    fun p k hk => (beatKey?_eq_some.1 hk).1
  have hclasses := @classes_map PlacedRow Row BeatKey _ (·.1.beatKey?) Row.beatKey?
    (fun p => p.1.outline) t.timed fun _ _ => rfl
  rw [h.outlines_timed, classes_rows hne hkeys] at hclasses
  unfold Table.beats
  rw [← classes_filter htimed, ← Table.timed, hclasses, List.map_filterMap]
  refine List.filterMap_eq_map_iff_forall_eq_some.2 fun c hc => ?_
  -- no class is empty, since no beat is
  have hmem : (c.1, c.2.map fun p => p.1.outline) ∈ beats.map fun b => (b.key, b.rows) := by
    rw [hclasses]
    exact List.mem_map_of_mem hc
  obtain ⟨b, hb, heq⟩ := List.mem_map.1 hmem
  obtain ⟨k, ps⟩ := c
  cases ps with
  | nil => exact absurd (congrArg Prod.snd heq) (hne b hb)
  | cons p ps => rfl

end Table.Times

/-- A measure of a table: it is made of the rows of its key, and counts them. -/
structure Measure.Of (t : Table) (m : Measure) : Prop where
  members : m.members = t.timed.filter fun p => decide (p.1.measureKey? = some m.key)
  unit : m.unit = m.first.1.effectiveUnit
  counted : m.counted = Measure.countBeats m.unit (m.members.map (·.1))
  beats : m.beats = if m.key.measure = 0 then pickupBeats m.counted m.first.1.pickup else m.counted
  meter : m.meter = meterText m.beats m.unit.den

theorem mem_measures {t : Table} {m : Measure} (h : m ∈ t.measures) : m.Of t := by
  obtain ⟨⟨key, ps⟩, hc, hm⟩ := List.mem_filterMap.1 h
  have hmembers := mem_classes hc
  cases ps with
  | nil => cases hm
  | cons p ps =>
      obtain rfl := Option.some.inj hm
      refine ⟨?_, rfl, rfl, rfl, rfl⟩
      unfold Table.timed
      rw [List.filter_filter]
      refine hmembers.trans (List.filter_congr fun q _ => ?_)
      by_cases hkey : q.1.measureKey? = some key
      · simp [hkey, (measureKey?_eq_some.1 hkey).1]
      · simp [hkey]

/-- A measure of the table holds the beats of that measure. -/
theorem Table.Times.members_measure {t : Table} {beats : List TimedBeat} (h : t.Times beats)
    {m : Measure} (hm : m ∈ t.measures) :
    m.members.map (fun p => p.1.outline)
      = (beats.filter fun b => decide (b.key.inMeasure = m.key)).flatMap TimedBeat.rows := by
  have hfilter : (t.timed.map fun p => p.1.outline).filter
        (fun r => decide (r.measureKey? = some m.key))
      = (t.timed.filter fun p => decide (p.1.measureKey? = some m.key)).map fun p => p.1.outline :=
    List.filter_map
  have hkey : ∀ b ∈ beats, ∀ r ∈ b.rows,
      decide (r.measureKey? = some m.key) = decide (b.key.inMeasure = m.key) := by
    intro b _ r hr
    rw [(TimedBeat.mem_rows hr).2.1]
    exact decide_eq_decide.2 Option.some_inj
  rw [(mem_measures hm).members, ← hfilter, h.outlines_timed, List.filter_flatMap,
    ← flatMap_filter_of_nil (p := fun b => decide (b.key.inMeasure = m.key))]
  · refine List.flatMap_congr fun b hb => ?_
    obtain ⟨hb, hm⟩ := List.mem_filter.1 hb
    exact List.filter_eq_self.2 fun r hr => (hkey b hb r hr).trans hm
  · intro b hb hm
    refine List.filter_eq_nil_iff.2 fun r hr => ?_
    rw [hkey b hb r hr, hm]
    exact Bool.false_ne_true

end LyricScore
