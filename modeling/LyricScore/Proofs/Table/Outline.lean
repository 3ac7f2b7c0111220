/-
The outline of a table: what the layout fixes once and for all. Rows keep their source, kind and
place through all stages, so what is said of outlines is proved of the layout and holds of every
table behind it.

# Order

Blocks come one behind the other. Within the lyric line of a block, the rows that take time and
the barlines stand in the order of their rank: a row that takes time ranks by measure and beat,
and a barline ranks behind all beats of its measure and before those of the next. Rows of equal
rank belong to one beat, because every beat lasts at least one beat.

Measures need less than that. They are counted by barlines alone, so whatever the beats last, rows
stand in the order of their measures, and a barline parts the measure before it from the next
(`Table.Measured`).

# Rows

`Block.Lays` says once what the rows of a block are: a barline, a unit mark, a segment of a beat, a
key signature or a pitch, in no measure before the first. What all rows of a layout have in common
is then one case for each.
-/
import LyricScore.Table.Group
import LyricScore.Table.Keys
import LyricScore.Table.Layout

namespace LyricScore

-- =========================================================== outline

/-- The fields of a row that the layout fills in. -/
def Row.outline (r : Row) : Row :=
  { source := r.source
    block := r.block
    kind := r.kind
    raw := r.raw
    measure := r.measure
    beat := r.beat
    subdivision := r.subdivision
    duration := r.duration
    shift := r.shift
    pickup := r.pickup }

/-- A row that is heard: it takes time, or it is a barline of the lyric line. -/
def Row.isSpoken (r : Row) : Bool :=
  r.isRhythm || Keys.isLyricBarline r

/-- The measure by which a row ranks; a barline ranks with the measure behind it. -/
def Row.measureRank (r : Row) : Int :=
  r.measure.getD 0 + if Keys.isLyricBarline r then 1 else 0

/-- The beat by which a row ranks. -/
def Row.beatRank (r : Row) : Int :=
  r.beat.getD 0

/-- The order in which rows stand. -/
def Row.Precedes (a b : Row) : Prop :=
  (a.source ≠ .header → b.source ≠ .header → a.block ≤ b.block)
    ∧ (a.isSpoken = true → b.isSpoken = true → a.block = b.block →
        a.measureRank < b.measureRank
          ∨ a.measureRank = b.measureRank ∧ a.beatRank ≤ b.beatRank)

/-- What the layout makes sure of for a single row. -/
structure Row.Placed (r : Row) : Prop where
  rhythm : r.isRhythm = true → ∃ measure beat duration, r.measure = some measure
    ∧ r.beat = some beat ∧ 1 ≤ beat ∧ r.duration = some duration ∧ 1 ≤ duration
  barline : Keys.isLyricBarline r = true → r.beat = none
  lyric : r.source = .lyric → r.isRhythm = true ∨ r.kind = .barline ∨ r.kind = .unit

/-- What the layout makes sure of for a table. -/
structure Table.Laid (t : Table) : Prop where
  ordered : t.Pairwise Row.Precedes
  placed : ∀ r ∈ t, r.Placed

/-- The order of rows by their blocks and measures. -/
def Row.Forward (a b : Row) : Prop :=
  (a.source ≠ .header → b.source ≠ .header → a.block ≤ b.block)
    ∧ (a.isSpoken = true → b.isSpoken = true → (a.isRhythm = true ∨ b.isRhythm = true) →
        a.block = b.block → a.measureRank ≤ b.measure.getD 0)

/-- What the layout of a score makes sure of, however long its beats are. -/
structure Table.Measured (t : Table) : Prop where
  ordered : t.Pairwise Row.Forward
  measure : ∀ r ∈ t, r.isRhythm = true → ∃ measure, r.measure = some measure

theorem Table.Measured.map_outline {t : Table} :
    Table.Measured (t.map Row.outline) ↔ t.Measured := by
  constructor
  · intro h
    have hordered : t.Pairwise fun a b => a.outline.Forward b.outline :=
      List.pairwise_map.1 h.ordered
    refine ⟨hordered.imp fun hab => hab, fun r hr hrhythm => ?_⟩
    exact h.measure r.outline (List.mem_map_of_mem hr) hrhythm
  · intro h
    refine ⟨List.pairwise_map.2 (h.ordered.imp fun hab => hab), fun r hr => ?_⟩
    obtain ⟨r, hmem, rfl⟩ := List.mem_map.1 hr
    exact h.measure r hmem

/-- Whether a table is in the order of its measures shows in its outline. -/
theorem Table.Measured.of_outline {t t' : Table} (h : t.Measured)
    (houtline : t'.map Row.outline = t.map Row.outline) : t'.Measured :=
  Table.Measured.map_outline.1 (houtline ▸ Table.Measured.map_outline.2 h)

namespace Table.Laid

theorem map_outline {t : Table} : Table.Laid (t.map Row.outline) ↔ t.Laid := by
  constructor
  · intro h
    have hordered : t.Pairwise fun a b => a.outline.Precedes b.outline :=
      List.pairwise_map.1 h.ordered
    refine ⟨hordered.imp fun hab => hab, fun r hr => ?_⟩
    have hplaced := h.placed _ (List.mem_map_of_mem hr)
    exact ⟨hplaced.rhythm, hplaced.barline, hplaced.lyric⟩
  · intro h
    refine ⟨List.pairwise_map.2 (h.ordered.imp fun hab => hab), fun r hr => ?_⟩
    obtain ⟨r, hmem, rfl⟩ := List.mem_map.1 hr
    have hplaced := h.placed r hmem
    exact ⟨hplaced.rhythm, hplaced.barline, hplaced.lyric⟩

/-- Whether a table is laid out shows in its outline. -/
theorem of_outline {t t' : Table} (h : t.Laid) (houtline : t'.map Row.outline = t.map Row.outline) :
    t'.Laid :=
  map_outline.1 (houtline ▸ map_outline.2 h)

end Table.Laid

-- ============================================================ layout

theorem isRhythm_segment (s : Segment) : s.kind.isRhythm = true := by
  cases s with
  | syllable text => rfl
  | marker m => cases m <;> rfl

theorem Segment.kind_ne_unit (s : Segment) : s.kind ≠ .unit := by
  intro hkind
  have hrhythm := isRhythm_segment s
  rw [hkind] at hrhythm
  cases hrhythm

/-- The rows of a beat all have its rank. -/
theorem mem_beat_rows {block : Int} {counter : Option Int} {measure beat : Int} {b : LyricBeat}
    {r : Row} (h : r ∈ b.rows block counter measure beat) :
    r.source = .lyric ∧ r.block = block ∧ r.isRhythm = true ∧ r.measure = some measure
      ∧ r.beat = some beat ∧ r.duration = some (b.duration : Rat) := by
  obtain ⟨s, -, rfl⟩ := List.mem_map.1 h
  exact ⟨rfl, rfl, isRhythm_segment s.1, rfl, rfl, rfl⟩

/-- A row that takes time attacks, holds or rests. -/
theorem Row.isRhythm_eq (r : Row) :
    r.isRhythm = (r.isAttack || r.isHold || (r.source == .lyric && r.kind == .rest)) := by
  unfold Row.isRhythm Row.isAttack Row.isHold
  cases r.kind <;> cases r.source <;> rfl

theorem isRhythm_of_isAttack {r : Row} (h : r.isAttack = true) : r.isRhythm = true := by
  rw [Row.isRhythm_eq, h]
  rfl

theorem isRhythm_of_isHold {r : Row} (h : r.isHold = true) : r.isRhythm = true := by
  rw [Row.isRhythm_eq, h, Bool.or_true]
  rfl

theorem source_of_isRhythm {r : Row} (h : r.isRhythm = true) : r.source = .lyric := by
  simp only [Row.isRhythm, Bool.and_eq_true, beq_iff_eq] at h
  exact h.1

theorem source_of_isAttack {r : Row} (h : r.isAttack = true) : r.source = .lyric :=
  source_of_isRhythm (isRhythm_of_isAttack h)

theorem source_of_isHold {r : Row} (h : r.isHold = true) : r.source = .lyric :=
  source_of_isRhythm (isRhythm_of_isHold h)

theorem isHold_of_isAttack {r : Row} (h : r.isAttack = true) : r.isHold = false := by
  simp only [Row.isAttack, Row.isHold, Bool.and_eq_true] at h ⊢
  cases hk : r.kind <;> simp [hk, Kind.isAttack, Kind.isHold] at h ⊢

theorem isAttack_of_isHold {r : Row} (h : r.isHold = true) : r.isAttack = false := by
  refine Bool.eq_false_iff.2 fun hattack => ?_
  rw [isHold_of_isAttack hattack] at h
  cases h

/-- A barline takes no time. -/
theorem isLyricBarline_of_isRhythm {r : Row} (h : r.isRhythm = true) :
    Keys.isLyricBarline r = false := by
  unfold Row.isRhythm at h
  unfold Keys.isLyricBarline
  cases hk : r.kind <;> simp_all [Kind.isRhythm]

/-- Where the rows of a lyric line stand that starts at a measure and a beat. -/
structure LineRow (block measure beat : Int) (r : Row) : Prop where
  source : r.source = .lyric
  block : r.block = block
  placed : r.Placed
  rank : r.isSpoken = true →
    measure < r.measureRank ∨ measure = r.measureRank ∧ beat ≤ r.beatRank

theorem LineRow.mono {block measure beat measure' beat' : Int} {r : Row}
    (h : LineRow block measure' beat' r)
    (hle : measure < measure' ∨ measure = measure' ∧ beat ≤ beat') : LineRow block measure beat r :=
  ⟨h.source, h.block, h.placed, fun hspoken => by have := h.rank hspoken; omega⟩

theorem lineRow_of_mem_rows {block : Int} {counter : Option Int} {measure beat : Int}
    {b : LyricBeat} (hbeat : 1 ≤ beat) (hb : 1 ≤ b.duration) {r : Row}
    (h : r ∈ b.rows block counter measure beat) :
    LineRow block measure beat r ∧ r.measureRank = measure ∧ r.beatRank = beat := by
  obtain ⟨hsource, hblock, hrhythm, hm, hbt, hd⟩ := mem_beat_rows h
  have hbar := isLyricBarline_of_isRhythm hrhythm
  have hmeasure : r.measureRank = measure := by
    simp [Row.measureRank, hm, hbar]
  have hrank : r.beatRank = beat := by
    simp [Row.beatRank, hbt]
  refine ⟨⟨hsource, hblock, ⟨fun _ => ?_, fun h => ?_, fun _ => Or.inl hrhythm⟩,
    fun _ => by omega⟩, hmeasure, hrank⟩
  · refine ⟨measure, beat, _, hm, hbt, hbeat, hd, ?_⟩
    exact Rat.intCast_le_intCast.2 hb
  · rw [hbar] at h
    cases h

/-- A row stands before all rows of a line that starts no earlier than it ranks. -/
theorem LineRow.precedes {block measure beat : Int} {a r : Row} (h : LineRow block measure beat r)
    (hblock : a.block = block)
    (hrank : a.isSpoken = true →
      a.measureRank < measure ∨ a.measureRank = measure ∧ a.beatRank ≤ beat) : a.Precedes r := by
  refine ⟨fun _ _ => Int.le_of_eq (hblock.trans h.block.symm), fun ha hr _ => ?_⟩
  have hmine := hrank ha
  have hits := h.rank hr
  omega

/-- The rows of a lyric line stand in order. -/
theorem lyricRows_ordered (block : Int) (counter : Option Int) (measure beat : Int)
    {items : List LyricItem} (hbeat : 1 ≤ beat)
    (hitems : ∀ b, LyricItem.beat b ∈ items → 1 ≤ b.duration) :
    (∀ r ∈ lyricRows block counter measure beat items, LineRow block measure beat r)
      ∧ (lyricRows block counter measure beat items).Pairwise Row.Precedes := by
  induction items generalizing measure beat with
  | nil => exact ⟨fun r hr => absurd hr List.not_mem_nil, List.Pairwise.nil⟩
  | cons item rest ih =>
      have hrest : ∀ b, LyricItem.beat b ∈ rest → 1 ≤ b.duration := fun b hb =>
        hitems b (List.mem_cons_of_mem _ hb)
      cases item with
      | barline =>
          obtain ⟨hrows, hpair⟩ := ih (measure + 1) 1 (Int.le_refl 1) hrest
          refine ⟨List.forall_mem_cons.2 ⟨?_, fun r hr => (hrows r hr).mono (by omega)⟩,
            List.pairwise_cons.2 ⟨fun r hr => (hrows r hr).precedes rfl fun _ => ?_, hpair⟩⟩
          · exact ⟨rfl, rfl, ⟨nofun, fun _ => rfl, fun _ => Or.inr (Or.inl rfl)⟩,
              fun _ => Or.inl (Int.lt_succ measure)⟩
          · exact Or.inr ⟨rfl, show (0 : Int) ≤ 1 by decide⟩
      | unit m =>
          obtain ⟨hrows, hpair⟩ := ih measure beat hbeat hrest
          refine ⟨List.forall_mem_cons.2 ⟨?_, hrows⟩,
            List.pairwise_cons.2 ⟨fun r hr => (hrows r hr).precedes rfl nofun, hpair⟩⟩
          exact ⟨rfl, rfl, ⟨nofun, nofun, fun _ => Or.inr (Or.inr rfl)⟩, nofun⟩
      | beat b =>
          have hb := hitems b List.mem_cons_self
          obtain ⟨hrows, hpair⟩ := ih measure (beat + b.duration) (by omega) hrest
          have hown : ∀ r ∈ b.rows block counter measure beat,
              LineRow block measure beat r ∧ r.measureRank = measure ∧ r.beatRank = beat :=
            fun r hr => lineRow_of_mem_rows hbeat hb hr
          refine ⟨List.forall_mem_append.2 ⟨fun r hr => (hown r hr).1,
            fun r hr => (hrows r hr).mono (by omega)⟩,
            List.pairwise_append.2 ⟨?_, hpair, fun r hr r' hr' => ?_⟩⟩
          · refine List.pairwise_iff_forall_sublist.2 fun {r r'} hsub => ?_
            obtain ⟨hr, hm, hbt⟩ := hown r (hsub.subset (by simp))
            obtain ⟨hr', hm', hbt'⟩ := hown r' (hsub.subset (by simp))
            exact hr'.precedes hr.block fun _ => by omega
          · obtain ⟨hr, hm, hbt⟩ := hown r hr
            exact (hrows r' hr').precedes hr.block fun _ => by omega

/-- The rows of a lyric line belong to their block, and none is in an earlier measure than the one
the line starts in. -/
theorem mem_lyricRows {block : Int} {counter : Option Int} {measure beat : Int}
    {items : List LyricItem} {r : Row} (h : r ∈ lyricRows block counter measure beat items) :
    r.source = .lyric ∧ r.block = block ∧ ∃ m, r.measure = some m ∧ measure ≤ m := by
  induction items generalizing measure beat with
  | nil => cases h
  | cons item rest ih =>
      cases item with
      | barline =>
          rcases List.mem_cons.1 h with rfl | h
          · exact ⟨rfl, rfl, measure, rfl, Int.le_refl _⟩
          · obtain ⟨hsource, hblock, m, hm, hle⟩ := ih h
            exact ⟨hsource, hblock, m, hm, by omega⟩
      | unit mark =>
          rcases List.mem_cons.1 h with rfl | h
          · exact ⟨rfl, rfl, measure, rfl, Int.le_refl _⟩
          · exact ih h
      | beat b =>
          rcases List.mem_append.1 h with h | h
          · obtain ⟨hsource, hblock, -, hm, -⟩ := mem_beat_rows h
            exact ⟨hsource, hblock, measure, hm, Int.le_refl _⟩
          · exact ih h

/-- The rows of a lyric line stand in the order of their measures. -/
theorem lyricRows_forward (block : Int) (counter : Option Int) (measure beat : Int)
    (items : List LyricItem) :
    (lyricRows block counter measure beat items).Pairwise Row.Forward := by
  have hforward : ∀ {a r : Row} {items : List LyricItem} {from' beat : Int},
      a.block = block → (a.isSpoken = true → a.measureRank ≤ from') →
      r ∈ lyricRows block counter from' beat items → a.Forward r := by
    intro a r items from' beat hblock hrank hr
    obtain ⟨-, hblock', m, hm, hle⟩ := mem_lyricRows hr
    refine ⟨fun _ _ => by omega, fun ha _ _ _ => ?_⟩
    rw [hm, Option.getD_some]
    exact Int.le_trans (hrank ha) hle
  induction items generalizing measure beat with
  | nil => exact List.Pairwise.nil
  | cons item rest ih =>
      cases item with
      | barline =>
          refine List.pairwise_cons.2 ⟨fun r hr => hforward rfl (fun _ => ?_) hr, ih _ _⟩
          exact Int.le_refl (measure + 1)
      | unit m => exact List.pairwise_cons.2 ⟨fun r hr => hforward rfl nofun hr, ih _ _⟩
      | beat b =>
          have hown : ∀ r ∈ b.rows block counter measure beat,
              r.block = block ∧ r.measure = some measure ∧ r.measureRank = measure := by
            intro r hr
            obtain ⟨-, hblock, hrhythm, hm, -⟩ := mem_beat_rows hr
            refine ⟨hblock, hm, ?_⟩
            simp [Row.measureRank, hm, isLyricBarline_of_isRhythm hrhythm]
          refine List.pairwise_append.2 ⟨?_, ih _ _, fun a ha r hr => ?_⟩
          · refine List.pairwise_iff_forall_sublist.2 fun {a r} hsub => ?_
            obtain ⟨hblock, -, hrank⟩ := hown a (hsub.subset (by simp))
            obtain ⟨hblock', hm', -⟩ := hown r (hsub.subset (by simp))
            refine ⟨fun _ _ => by omega, fun _ _ _ _ => ?_⟩
            rw [hm', hrank]
            exact Int.le_refl _
          · obtain ⟨hblock, -, hrank⟩ := hown a ha
            exact hforward hblock (fun _ => Int.le_of_eq hrank) hr

/-- The rows of a pitch line belong to their block. -/
theorem mem_pitchRows {block measure : Int} {items : List PitchItem} {r : Row}
    (h : r ∈ pitchRows block measure items) : r.source = .pitch ∧ r.block = block := by
  induction items generalizing measure with
  | nil => cases h
  | cons item rest ih =>
      cases item <;> rcases List.mem_cons.1 h with rfl | h
      case barline.inl => exact ⟨rfl, rfl⟩
      case key.inl => exact ⟨rfl, rfl⟩
      case pitch.inl => exact ⟨rfl, rfl⟩
      all_goals exact ih h

-- ============================================================ scores

/-- The rows of a block are those of its lyric line and then those of its pitch line. -/
theorem Block.rows_eq (number : Int) (b : Block) :
    ∃ pitches, b.rows number = lyricRows number b.counter b.firstMeasure 1 b.lyrics ++ pitches
      ∧ ∀ r ∈ pitches, r.source = .pitch ∧ r.block = number := by
  refine ⟨_, List.append_assoc _ _ _, fun r hr => ?_⟩
  rcases List.mem_append.1 hr with hr | hr
  · cases ho : b.pitches.opening with
    | none => rw [ho] at hr; cases hr
    | some o =>
        rw [ho] at hr
        obtain rfl := List.mem_singleton.1 hr
        exact ⟨rfl, rfl⟩
  · exact mem_pitchRows hr

/-- The rows that a block lays out, each with the item that it is the row of. -/
inductive Block.Lays (b : Block) (number : Int) : Row → Prop
  | lyricBar {measure : Int} (hmeasure : b.firstMeasure ≤ measure) :
    b.Lays number
      { source := .lyric, block := number, kind := .barline, raw := "|", measure := some measure
        pickup := b.counter }
  | unit {measure : Int} {m : UnitMark} (hmeasure : b.firstMeasure ≤ measure)
      (hmem : .unit m ∈ b.lyrics) :
    b.Lays number
      { source := .lyric, block := number, kind := .unit, raw := m.text, measure := some measure
        pickup := b.counter }
  | segment {measure beat : Int} {lyric : LyricBeat} {s : Segment × Nat}
      (hmeasure : b.firstMeasure ≤ measure) (hmem : .beat lyric ∈ b.lyrics)
      (hs : s ∈ lyric.segments.zipIdx 1) :
    b.Lays number
      { source := .lyric, block := number, kind := s.1.kind, raw := s.1.text
        measure := some measure, beat := some beat, subdivision := some s.2
        duration := some lyric.duration, pickup := b.counter }
  | opening {o : Opening} (ho : b.pitches.opening = some o) :
    b.Lays number (keyRow number b.firstMeasure o.text)
  | pitchBar {measure : Int} (hmeasure : b.firstMeasure ≤ measure) :
    b.Lays number
      { source := .pitch, block := number, kind := .barline, raw := "|", measure := some measure }
  | key {measure : Int} {k : KeySignature} (hmeasure : b.firstMeasure ≤ measure)
      (hmem : .key k ∈ b.pitches.items) :
    b.Lays number (keyRow number measure k.text)
  | pitch {measure : Int} {p : Pitch} (hmeasure : b.firstMeasure ≤ measure)
      (hmem : .pitch p ∈ b.pitches.items) :
    b.Lays number (p.row number measure)

theorem Block.lays_of_mem_lyricRows {b : Block} {number measure beat : Int} {items : List LyricItem}
    (hitems : ∀ item ∈ items, item ∈ b.lyrics) (hmeasure : b.firstMeasure ≤ measure) {r : Row}
    (h : r ∈ lyricRows number b.counter measure beat items) : b.Lays number r := by
  induction items generalizing measure beat with
  | nil => cases h
  | cons item rest ih =>
      obtain ⟨hitem, hrest⟩ := List.forall_mem_cons.1 hitems
      cases item with
      | barline =>
          rcases List.mem_cons.1 h with rfl | h
          · exact .lyricBar hmeasure
          · exact ih hrest (by omega) h
      | unit m =>
          rcases List.mem_cons.1 h with rfl | h
          · exact .unit hmeasure hitem
          · exact ih hrest hmeasure h
      | beat lyric =>
          rcases List.mem_append.1 h with h | h
          · obtain ⟨s, hs, rfl⟩ := List.mem_map.1 h
            exact .segment hmeasure hitem hs
          · exact ih hrest hmeasure h

theorem Block.lays_of_mem_pitchRows {b : Block} {number measure : Int} {items : List PitchItem}
    (hitems : ∀ item ∈ items, item ∈ b.pitches.items) (hmeasure : b.firstMeasure ≤ measure)
    {r : Row} (h : r ∈ pitchRows number measure items) : b.Lays number r := by
  induction items generalizing measure with
  | nil => cases h
  | cons item rest ih =>
      obtain ⟨hitem, hrest⟩ := List.forall_mem_cons.1 hitems
      cases item with
      | barline =>
          rcases List.mem_cons.1 h with rfl | h
          · exact .pitchBar hmeasure
          · exact ih hrest (by omega) h
      | key k =>
          rcases List.mem_cons.1 h with rfl | h
          · exact .key hmeasure hitem
          · exact ih hrest hmeasure h
      | pitch p =>
          rcases List.mem_cons.1 h with rfl | h
          · exact .pitch hmeasure hitem
          · exact ih hrest hmeasure h

theorem Block.lays_of_mem_rows {b : Block} {number : Int} {r : Row} (h : r ∈ b.rows number) :
    b.Lays number r := by
  rcases List.mem_append.1 h with h | h
  · rcases List.mem_append.1 h with h | h
    · exact Block.lays_of_mem_lyricRows (fun _ hitem => hitem) (Int.le_refl _) h
    · obtain ⟨o, ho, rfl⟩ := Option.map_eq_some_iff.1 (Option.mem_toList.1 h)
      exact .opening ho
  · exact Block.lays_of_mem_pitchRows (fun _ hitem => hitem) (Int.le_refl _) h

/-- Every row of a score is laid out by one of its blocks. -/
theorem Score.lays_of_mem_layout {s : Score} {r : Row} (h : r ∈ s.layout) :
    ∃ b ∈ s.blocks, ∃ number : Int, b.Lays number r := by
  obtain ⟨b, hb, hr⟩ := List.mem_flatMap.1 h
  exact ⟨b.1, List.fst_mem_of_mem_zipIdx hb, b.2, Block.lays_of_mem_rows hr⟩

theorem Block.block_of_mem_rows {number : Int} {b : Block} {r : Row} (h : r ∈ b.rows number) :
    r.block = number := by
  cases Block.lays_of_mem_rows h <;> rfl

/-- A row of a score stands in a lyric line, or it is a pitch row. -/
theorem Score.mem_layout {s : Score} {r : Row} (h : r ∈ s.layout) :
    r.source = .pitch ∨ ∃ b ∈ s.blocks, ∃ number,
      r ∈ lyricRows number b.counter b.firstMeasure 1 b.lyrics := by
  obtain ⟨b, hb, hr⟩ := List.mem_flatMap.1 h
  obtain ⟨pitches, hrows, hpitch⟩ := b.1.rows_eq b.2
  rw [hrows] at hr
  rcases List.mem_append.1 hr with hr | hr
  · exact Or.inr ⟨b.1, List.fst_mem_of_mem_zipIdx hb, b.2, hr⟩
  · exact Or.inl (hpitch r hr).1

/-- An order of rows that the lyric lines keep, and that goes by blocks otherwise, is kept by the
whole score. -/
theorem Score.layout_pairwise {R : Row → Row → Prop} {s : Score}
    (hlyric : ∀ b ∈ s.blocks, ∀ number,
      (lyricRows number b.counter b.firstMeasure 1 b.lyrics).Pairwise R)
    (hpitch : ∀ a r : Row, r.source = .pitch → a.block ≤ r.block → R a r)
    (hblock : ∀ a r : Row, a.block < r.block → R a r) : s.layout.Pairwise R := by
  suffices key : ∀ (bs : List Block) (n : Nat), (∀ b ∈ bs, b ∈ s.blocks) →
      (∀ r ∈ (bs.zipIdx n).flatMap (fun b => b.1.rows b.2), (n : Int) ≤ r.block)
        ∧ ((bs.zipIdx n).flatMap fun b => b.1.rows b.2).Pairwise R from
    (key s.blocks 1 fun _ hb => hb).2
  intro bs
  induction bs with
  | nil => exact fun n _ => ⟨fun r hr => absurd hr List.not_mem_nil, List.Pairwise.nil⟩
  | cons b bs ih =>
      intro n hbs
      obtain ⟨hb, hbs⟩ := List.forall_mem_cons.1 hbs
      obtain ⟨hmore, hpair⟩ := ih (n + 1) hbs
      have hown : (b.rows n).Pairwise R := by
        obtain ⟨pitches, hrows, hpitches⟩ := b.rows_eq n
        rw [hrows]
        refine List.pairwise_append.2 ⟨hlyric b hb n, ?_, fun a ha r hr => ?_⟩
        · refine List.pairwise_iff_forall_sublist.2 fun {a r} hsub => ?_
          obtain ⟨-, hablock⟩ := hpitches a (hsub.subset (by simp))
          obtain ⟨hsource, hrblock⟩ := hpitches r (hsub.subset (by simp))
          exact hpitch a r hsource (by omega)
        · obtain ⟨hsource, hrblock⟩ := hpitches r hr
          exact hpitch a r hsource (Int.le_of_eq ((mem_lyricRows ha).2.1.trans hrblock.symm))
      rw [List.zipIdx_cons, List.flatMap_cons]
      refine ⟨List.forall_mem_append.2 ⟨fun r hr => ?_, fun r hr => ?_⟩,
        List.pairwise_append.2 ⟨hown, hpair, fun a ha r hr => hblock a r ?_⟩⟩
      · exact Int.le_of_eq (Block.block_of_mem_rows hr).symm
      · have := hmore r hr
        omega
      · -- the later block has a greater number
        have ha' := Block.block_of_mem_rows ha
        have hr' := hmore r hr
        omega

theorem isSpoken_of_source {r : Row} (h : r.source = .pitch) : r.isSpoken = false := by
  simp [Row.isSpoken, Row.isRhythm, Keys.isLyricBarline, h]

/-- A score with no beat shorter than one is laid out in order. -/
theorem Score.layout_laid {s : Score}
    (hs : ∀ b ∈ s.blocks, ∀ beat, LyricItem.beat beat ∈ b.lyrics → 1 ≤ beat.duration) :
    s.layout.Laid := by
  refine ⟨Score.layout_pairwise (fun b hb number => ?_) (fun a r hsource hle => ?_)
    (fun a r hlt => ?_), fun r hr => ?_⟩
  · exact (lyricRows_ordered number b.counter b.firstMeasure 1 (Int.le_refl 1) (hs b hb)).2
  · refine ⟨fun _ _ => hle, fun _ hr => ?_⟩
    rw [isSpoken_of_source hsource] at hr
    cases hr
  · exact ⟨fun _ _ => Int.le_of_lt hlt, fun _ _ heq => absurd heq (Int.ne_of_lt hlt)⟩
  · rcases Score.mem_layout hr with hsource | ⟨b, hb, number, hr⟩
    · refine ⟨fun h => ?_, fun h => ?_, fun h => ?_⟩
      · simp [Row.isRhythm, hsource] at h
      · simp [Keys.isLyricBarline, hsource] at h
      · rw [hsource] at h
        cases h
    · exact ((lyricRows_ordered number b.counter b.firstMeasure 1 (Int.le_refl 1) (hs b hb)).1 r
        hr).placed

/-- Every score is laid out in the order of its measures. -/
theorem Score.layout_measured (s : Score) : s.layout.Measured := by
  refine ⟨Score.layout_pairwise (fun b _ number => lyricRows_forward _ _ _ _ _)
    (fun a r hsource hle => ?_) (fun a r hlt => ?_), fun r hr hrhythm => ?_⟩
  · refine ⟨fun _ _ => hle, fun _ hr => ?_⟩
    rw [isSpoken_of_source hsource] at hr
    cases hr
  · exact ⟨fun _ _ => Int.le_of_lt hlt, fun _ _ _ heq => absurd heq (Int.ne_of_lt hlt)⟩
  · rcases Score.mem_layout hr with hsource | ⟨b, -, number, hr⟩
    · simp [Row.isRhythm, hsource] at hrhythm
    · obtain ⟨-, -, m, hm, -⟩ := mem_lyricRows hr
      exact ⟨m, hm⟩

/-- Rows in the order of their ranks are in the order of their measures. -/
theorem Table.Laid.measured {t : Table} (h : t.Laid) : t.Measured := by
  have hmeasure : ∀ r ∈ t, r.isRhythm = true → ∃ measure, r.measure = some measure := by
    intro r hr hrhythm
    obtain ⟨measure, -, -, hm, -⟩ := (h.placed r hr).rhythm hrhythm
    exact ⟨measure, hm⟩
  refine ⟨?_, hmeasure⟩
  refine List.pairwise_iff_forall_sublist.2 fun {a b} hsub => ?_
  have hpair := List.pairwise_iff_forall_sublist.1 h.ordered hsub
  have ha := h.placed a (hsub.subset (by simp))
  have hb := h.placed b (hsub.subset (by simp))
  refine ⟨hpair.1, fun hsa hsb htimed hblock => ?_⟩
  have hrank := hpair.2 hsa hsb hblock
  by_cases hbar : Keys.isLyricBarline b = true
  · -- a row that takes time stands before the barline of its measure
    have hzero : b.beatRank = 0 := by simp [Row.beatRank, hb.barline hbar]
    have hrankb : b.measureRank = b.measure.getD 0 + 1 := by simp [Row.measureRank, hbar]
    have harhythm : a.isRhythm = true := by
      rcases htimed with ha | hb
      · exact ha
      · rw [isLyricBarline_of_isRhythm hb] at hbar
        cases hbar
    obtain ⟨measure, beat, -, -, hbeat, hpos, -⟩ := ha.rhythm harhythm
    have hranka : a.beatRank = beat := by simp [Row.beatRank, hbeat]
    omega
  · have hrankb : b.measureRank = b.measure.getD 0 := by simp [Row.measureRank, hbar]
    omega

end LyricScore
