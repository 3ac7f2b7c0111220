/-
The text behind a table. A table has a row for every token of its score, so the score can be written
out again from the rows alone: `Table.source` does so, and reading what it writes gives the blocks
of the score. So the layout loses nothing of a score but its title.

# Wording

A row adds its own text to its line. A row with a place of its own starts a word, and a row with a
later place in its beat goes on with the word of the row before it, behind a point; the first row of
a beat tells its duration. Nothing else is looked at: where blocks end shows in the numbers of the
blocks, and whether a key signature opens its line shows in its being the first word.
-/
import Mathlib.Data.List.Nodup
import LyricScore.Proofs.Score.RoundTrip
import LyricScore.Proofs.Table.Classes
import LyricScore.Proofs.Table.Outline

namespace LyricScore

open Text

-- ============================================================ wording

/-- What a row adds to its line. -/
def Row.wording (r : Row) : List Char :=
  if r.isRhythm then
    if r.subdivision = some 1 then
      ' ' :: ((decimal (r.duration.getD 1).num).toList ++ '.' :: r.raw.toList)
    else '.' :: r.raw.toList
  else ' ' :: r.raw.toList

/-- The line that rows write. -/
def lineOf (rows : List Row) : List Char :=
  (rows.flatMap Row.wording).drop 1

/-- The lines that the rows of a block write. -/
def blockLines (rows : List Row) : List (List Char) :=
  lineOf (rows.filter fun r => decide (r.source = .lyric))
    :: lineOf (rows.filter fun r => decide (r.source = .pitch))
    :: ((rows.head?.bind (·.pickup)).map printedCounter).toList

/-- The text that a table writes, block by block. -/
def Table.source (t : Table) : String :=
  String.ofList (joinWith ['\n', '\n'] ((classes (fun r : Row => some r.block) t).map fun c =>
    joinWith ['\n'] (blockLines c.2)))

-- ============================================================== lines

theorem joinWith_cons (c : Char) (w : List Char) (ws : List (List Char)) :
    joinWith [c] (w :: ws) = w ++ ws.flatMap (c :: ·) := by
  induction ws generalizing w with
  | nil => rw [joinWith_singleton, List.flatMap_nil, List.append_nil]
  | cons v ws ih =>
      rw [joinWith_cons_cons, ih, List.flatMap_cons]
      rfl

/-- Words with a space before each of them, but for the first space. -/
theorem joinWith_eq_drop (c : Char) (ws : List (List Char)) :
    joinWith [c] ws = (ws.flatMap (c :: ·)).drop 1 := by
  cases ws with
  | nil => rfl
  | cons w ws =>
      rw [joinWith_cons]
      rfl

theorem Row.wording_of_not_isRhythm {r : Row} (h : r.isRhythm = false) :
    r.wording = ' ' :: r.raw.toList := by
  unfold Row.wording
  rw [if_neg (by simp [h])]

theorem Row.wording_of_first {r : Row} (hr : r.isRhythm = true) (h : r.subdivision = some 1) :
    r.wording = ' ' :: ((decimal (r.duration.getD 1).num).toList ++ '.' :: r.raw.toList) := by
  unfold Row.wording
  rw [if_pos hr, if_pos h]

theorem Row.wording_of_later {r : Row} (hr : r.isRhythm = true) (h : r.subdivision ≠ some 1) :
    r.wording = '.' :: r.raw.toList := by
  unfold Row.wording
  rw [if_pos hr, if_neg h]

/-- The rows of a beat write it as one word. -/
theorem wording_beat {b : LyricBeat} (h : b.segments ≠ []) (block : Int) (counter : Option Int)
    (measure beat : Int) :
    (b.rows block counter measure beat).flatMap Row.wording = ' ' :: b.printed := by
  obtain ⟨segments, duration⟩ := b
  cases segments with
  | nil => exact absurd rfl h
  | cons s segments =>
      have hprinted : segments.flatMap (fun s => '.' :: s.text.toList)
          = (segments.zipIdx 2).flatMap fun s => '.' :: s.1.text.toList := by
        conv => lhs; rw [← List.zipIdx_map_fst 2 segments, List.flatMap_map]
      unfold LyricBeat.rows LyricBeat.printed
      rw [List.flatMap_map, List.zipIdx_cons, List.flatMap_cons, List.map_cons, joinWith_cons,
        List.flatMap_map, hprinted, Row.wording_of_first]
      · -- the rows behind the first have a later place, so each of them goes on with the word
        have hlater : ∀ r ∈ segments.zipIdx 2, Row.wording
            { source := .lyric, block := block, kind := r.1.kind, raw := r.1.text,
              measure := some measure, beat := some beat, subdivision := some r.2,
              duration := some (duration : Rat), pickup := counter }
            = '.' :: r.1.text.toList := by
          intro r hr
          have hplace : 2 ≤ r.2 := (List.mem_zipIdx hr).1
          apply Row.wording_of_later
          · exact isRhythm_segment r.1
          · simp
            omega
        rw [List.flatMap_congr hlater]
        simp
      · exact isRhythm_segment s
      · rfl

theorem wording_lyricRows (block : Int) (counter : Option Int) (measure beat : Int)
    {items : List LyricItem} (h : ∀ b, LyricItem.beat b ∈ items → b.segments ≠ []) :
    (lyricRows block counter measure beat items).flatMap Row.wording
      = (items.map LyricItem.printed).flatMap (' ' :: ·) := by
  induction items generalizing measure beat with
  | nil => rfl
  | cons item rest ih =>
      have hrest := fun measure beat => ih measure beat fun b hb => h b (List.mem_cons_of_mem _ hb)
      cases item with
      | barline =>
          rw [lyricRows, List.flatMap_cons, Row.wording_of_not_isRhythm rfl, hrest]
          simp [LyricItem.printed]
      | unit m =>
          rw [lyricRows, List.flatMap_cons, Row.wording_of_not_isRhythm rfl, hrest]
          rfl
      | beat b =>
          rw [lyricRows, List.flatMap_append, wording_beat (h b List.mem_cons_self), hrest]
          rfl

theorem wording_pitchRows (block measure : Int) (items : List PitchItem) :
    (pitchRows block measure items).flatMap Row.wording
      = (items.map PitchItem.printed).flatMap (' ' :: ·) := by
  induction items generalizing measure with
  | nil => rfl
  | cons item rest ih =>
      cases item with
      | barline =>
          rw [pitchRows, List.flatMap_cons, Row.wording_of_not_isRhythm rfl, ih]
          simp [PitchItem.printed]
      | key k =>
          rw [pitchRows, List.flatMap_cons, Row.wording_of_not_isRhythm rfl, ih]
          rfl
      | pitch p =>
          rw [pitchRows, List.flatMap_cons, Row.wording_of_not_isRhythm rfl, ih]
          rfl

-- ============================================================= blocks

/-- The rows of the two lines of a block, apart. -/
theorem Block.filter_rows (number : Int) (b : Block) :
    (b.rows number).filter (fun r => decide (r.source = .lyric))
        = lyricRows number b.counter b.firstMeasure 1 b.lyrics
      ∧ (b.rows number).filter (fun r => decide (r.source = .pitch))
        = (b.pitches.opening.map fun o => keyRow number b.firstMeasure o.text).toList
          ++ pitchRows number b.firstMeasure b.pitches.items := by
  obtain ⟨pitches, hrows, hpitch⟩ := b.rows_eq number
  have hpitches : (b.pitches.opening.map fun o => keyRow number b.firstMeasure o.text).toList
      ++ pitchRows number b.firstMeasure b.pitches.items = pitches :=
    List.append_cancel_left ((List.append_assoc _ _ _).symm.trans hrows)
  have hlyric : ∀ r ∈ lyricRows number b.counter b.firstMeasure 1 b.lyrics, r.source = .lyric :=
    fun r hr => (mem_lyricRows hr).1
  rw [hpitches, hrows]
  generalize lyricRows number b.counter b.firstMeasure 1 b.lyrics = lyrics at hlyric ⊢
  rw [List.filter_append, List.filter_append]
  refine ⟨?_, ?_⟩
  · rw [List.filter_eq_self (l := lyrics).2 fun r hr => by simp [hlyric r hr],
      List.filter_eq_nil_iff (l := pitches).2 fun r hr => by simp [hpitch r hr], List.append_nil]
  · rw [List.filter_eq_self (l := pitches).2 fun r hr => by simp [hpitch r hr],
      List.filter_eq_nil_iff (l := lyrics).2 fun r hr => by simp [hlyric r hr], List.nil_append]

/-- The first row of a block knows its counter. -/
theorem Block.rows_eq_cons (number : Int) {b : Block} (h : b.lyrics ≠ [])
    (hbeats : ∀ beat, LyricItem.beat beat ∈ b.lyrics → beat.segments ≠ []) :
    ∃ r rows, b.rows number = r :: rows ∧ r.pickup = b.counter := by
  obtain ⟨item, items, hlyrics⟩ := List.exists_cons_of_ne_nil h
  unfold Block.rows
  rw [hlyrics]
  cases item with
  | barline => exact ⟨_, _, rfl, rfl⟩
  | unit m => exact ⟨_, _, rfl, rfl⟩
  | beat beat =>
      obtain ⟨s, segments, hsegments⟩ :=
        List.exists_cons_of_ne_nil (hbeats beat (hlyrics ▸ List.mem_cons_self))
      rw [lyricRows, LyricBeat.rows, hsegments]
      exact ⟨_, _, rfl, rfl⟩

theorem Block.WellFormed.segments_ne_nil {b : Block} (h : b.WellFormed) {beat : LyricBeat}
    (hbeat : LyricItem.beat beat ∈ b.lyrics) : beat.segments ≠ [] :=
  (h.2.1 _ hbeat).1

/-- The rows of a block write its lines. -/
theorem Block.blockLines_rows (number : Int) {b : Block} (h : b.WellFormed) :
    blockLines (b.rows number) = b.printed := by
  obtain ⟨hlyric, hpitch⟩ := b.filter_rows number
  obtain ⟨r, rows, hrows, hcounter⟩ := b.rows_eq_cons number h.1 fun _ => h.segments_ne_nil
  have hhead : (b.rows number).head?.bind (·.pickup) = b.counter := by
    rw [hrows]
    exact hcounter
  unfold blockLines Block.printed lineOf
  rw [hlyric, hpitch, hhead]
  congr 1
  · rw [wording_lyricRows _ _ _ _ fun _ => h.segments_ne_nil, joinWith_eq_drop]
  · congr 1
    have hopening : ((b.pitches.opening.map fun o => keyRow number b.firstMeasure o.text).toList
        ).flatMap Row.wording
          = ((b.pitches.opening.map (·.text.toList)).toList).flatMap (' ' :: ·) := by
      cases b.pitches.opening with
      | none => rfl
      | some o => exact congrArg (· ++ []) (Row.wording_of_not_isRhythm rfl)
    rw [List.flatMap_append, hopening, wording_pitchRows, ← List.flatMap_append, joinWith_eq_drop]
    rfl

-- ============================================================= scores

/-- The blocks of a score are the classes of its rows. -/
theorem Score.classes_layout {s : Score} (hs : ∀ b ∈ s.blocks, b.WellFormed) :
    classes (fun r : Row => some r.block) s.layout
      = (s.blocks.zipIdx 1).map fun b => ((b.2 : Int), b.1.rows b.2) := by
  apply classes_eq_of_parts
  · unfold keyed Score.layout
    rw [List.filterMap_flatMap, List.flatMap_map]
    refine List.flatMap_congr fun b hb => ?_
    rw [← List.filterMap_eq_map]
    refine List.filterMap_congr fun r hr => ?_
    simp [Block.block_of_mem_rows hr]
  · intro p hp
    obtain ⟨⟨b, number⟩, hb, rfl⟩ := List.mem_map.1 hp
    have hwell := hs b (List.fst_mem_of_mem_zipIdx hb)
    obtain ⟨r, rows, hrows, -⟩ := b.rows_eq_cons number hwell.1 fun _ => hwell.segments_ne_nil
    rw [hrows]
    exact List.cons_ne_nil _ _
  · rw [List.map_map]
    have hnumbers : ((s.blocks.zipIdx 1).map Prod.snd).Nodup := by
      rw [List.zipIdx_map_snd]
      exact List.nodup_range'
    rw [show (Prod.fst ∘ fun b : Block × Nat => ((b.2 : Int), b.1.rows b.2))
      = Nat.cast ∘ Prod.snd from rfl, ← List.map_map]
    exact List.Nodup.map (fun _ _ => Int.ofNat.inj) hnumbers

/-- A table writes the score that it lays out, but for the title. -/
theorem Score.source_layout {s : Score} (hs : s.WellFormed) :
    s.layout.source = Score.print { s with title := "" } := by
  unfold Table.source Score.print Score.chunks
  rw [Score.classes_layout hs.2, List.map_map, if_pos rfl, List.nil_append, List.map_map]
  congr 2
  conv => rhs; rw [← List.zipIdx_map_fst 1 s.blocks, List.map_map]
  refine List.map_congr_left fun b hb => ?_
  exact congrArg _ (Block.blockLines_rows b.2 (hs.2 b.1 (List.fst_mem_of_mem_zipIdx hb)))

/-- Reading what the table of a score writes gives the blocks of the score, so that scores with one
table have the same blocks. -/
theorem Score.parse_source_layout {text : String} {s : Score} (h : Score.parse text = .ok s) :
    Score.parse s.layout.source = .ok { s with title := "" }
      ∧ ∀ (text' : String) (s' : Score), Score.parse text' = .ok s' → s'.layout = s.layout →
        s'.blocks = s.blocks := by
  have hrebuilt : ∀ {text : String} {s : Score}, Score.parse text = .ok s →
      Score.parse s.layout.source = .ok { s with title := "" } := by
    intro text s h
    have hs := Reader.wellFormed_of_parse h
    rw [Score.source_layout hs]
    exact Reader.parse_print ⟨Or.inl rfl, hs.2⟩
  refine ⟨hrebuilt h, fun text' s' h' htable => ?_⟩
  have hsame := (hrebuilt h').symm.trans (htable ▸ hrebuilt h)
  exact (Score.mk.inj (Except.ok.inj hsame)).1

/-- A line that opens with a key and has it again, shifts that undo each other, a syllable that is a
digit and a pickup, read back from their rows. -/
theorem Score.parse_source_layout_shifts :
    let s : Score :=
      ⟨[⟨[.unit ⟨4, true⟩, .beat ⟨[.syllable "la", .marker .tie, .syllable "7"], 3⟩, .barline,
          .beat ⟨[.syllable "do", .marker .rest, .marker .attack], 1⟩],
        ⟨some (.key ⟨"#", 1⟩), [.pitch ⟨"a", .plain, "^/"⟩, .key ⟨"#", 1⟩, .barline,
          .pitch ⟨"b", .natural, "/"⟩]⟩, some 2⟩,
        ⟨[.beat ⟨[.syllable "re"], 1⟩], ⟨none, [.pitch ⟨"c", .plain, ""⟩]⟩, none⟩], "Airs"⟩
    Score.parse "Airs\n\n[4.] 3la.-.7 | do;*\nK#1 ^/a K#1 | /%b\ncounter: 2\n\nre\nc" = .ok s
      ∧ s.layout.source
        = "[4.] 3.la.-.7 | 1.do.;.*\nK#1 ^/a K#1 | /%b\ncounter: 2\n\n1.re\nc"
      ∧ Score.parse s.layout.source = .ok { s with title := "" } := by
  intro s
  have hparse : Score.parse
      "Airs\n\n[4.] 3la.-.7 | do;*\nK#1 ^/a K#1 | /%b\ncounter: 2\n\nre\nc" = .ok s := by
    decide +kernel
  exact ⟨hparse, by decide +kernel, (Score.parse_source_layout hparse).1⟩

end LyricScore
