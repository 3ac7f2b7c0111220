/-
No stage fails. What a stage can fail on is a letter that does not exist, a mark or a meter that
cannot be read, and a number that is too long to be written. A table that renders a score has none
of the first. The numbers are the beats of a measure and the lengths of its notes, and all of them
are bounded by what the score asks of one measure: the counter of its block, the durations of its
beats and the number of their segments.

So from a table that renders the score every stage goes on (`Stage.exists_run`), and what it hands
on renders the score again. A run is the induction over its stages.
-/
import LyricScore.Performance.Event
import LyricScore.Proofs.Pipeline.Soundness
import Mathlib.Algebra.Order.BigOperators.Group.List
import Mathlib.Data.Rat.Lemmas

namespace LyricScore

open Text

-- ============================================================ numbers

theorem natAbs_lt_pow {n : Int} {digits : Nat} (hpos : 0 ≤ n) (h : n < 10 ^ digits) :
    n.natAbs < Nat.pow 10 digits := by
  obtain ⟨k, rfl⟩ := Int.eq_ofNat_of_zero_le hpos
  exact_mod_cast h

theorem fits_of_lt {n : Int} (hpos : 0 ≤ n) (h : n < 10 ^ maxDigits) : fits n = true :=
  decide_eq_true (natAbs_lt_pow hpos h)

theorem fits_of_le_sixteen {n : Int} (hpos : 0 ≤ n) (h : n ≤ 16) : fits n = true := by
  refine fits_of_lt hpos (lt_of_le_of_lt h ?_)
  calc (16 : Int) < 10 ^ 2 := by decide
    _ ≤ 10 ^ maxDigits := pow_le_pow_right₀ (by decide) (by decide)

/-- The known units are short. -/
theorem ratFits_of_known {unit : Rat} (h : unit ∈ knownUnits) : ratFits unit = true := by
  have hterms : ∀ unit ∈ knownUnits, 0 ≤ unit.num ∧ unit.num ≤ 16 ∧ unit.den ≤ 16 := by
    simp +decide [knownUnits]
  obtain ⟨hpos, hnum, hden⟩ := hterms unit h
  unfold ratFits
  rw [fits_of_le_sixteen hpos hnum, fits_of_le_sixteen (by omega) (by omega)]
  rfl

/-- A quotient of short numbers is short: what cancels makes it shorter. -/
theorem lengthFits_div {a : Int} {n : Nat} (ha : 1 ≤ a) (hn : 1 ≤ n) (hfits : a < 10 ^ maxDigits)
    (hfits' : (n : Int) < 10 ^ maxDigits) : lengthFits ((a : Rat) / n) = true := by
  have hquotient : (a : Rat) / n = Rat.divInt a n := by
    rw [Rat.divInt_eq_div, Int.cast_natCast]
  have hpos : 0 ≤ (Rat.divInt a n).num := by
    rw [Rat.num_nonneg, ← hquotient]
    exact div_nonneg (by exact_mod_cast (by omega : 0 ≤ a)) (Nat.cast_nonneg n)
  have hnum : (Rat.divInt a n).num ≤ a :=
    Int.le_of_dvd (by omega) (Rat.num_dvd a (by omega))
  have hden : ((Rat.divInt a n).den : Int) ≤ n := Int.le_of_dvd (by omega) (Rat.den_dvd a n)
  unfold lengthFits
  rw [hquotient, fits_of_lt hpos (lt_of_le_of_lt hnum hfits),
    fits_of_lt (by omega) (lt_of_le_of_lt hden hfits')]
  simp

-- ============================================================== loads

/-- What the beats of a measure come to, in a lyric line that starts in the measure `current`: their
durations and the number of their segments. -/
def lyricLoad (measure current : Int) : List LyricItem → Int
  | [] => 0
  | .barline :: rest => lyricLoad measure (current + 1) rest
  | .unit _ :: rest => lyricLoad measure current rest
  | .beat b :: rest =>
    (if current = measure then b.duration + b.segments.length else 0) + lyricLoad measure current rest

/-- What a block asks of a measure: its counter, and its beats there. -/
def Block.load (b : Block) (measure : Int) : Int :=
  b.counter.getD 0 + lyricLoad measure b.firstMeasure b.lyrics

/-- What a beat adds to its measure. -/
def TimedBeat.load (b : TimedBeat) : Int :=
  b.beat.duration + b.rows.length

theorem sum_load_lyricBeats (block : Int) (counter : Option Int) (measure current beat : Int)
    (items : List LyricItem) :
    (((lyricBeats block counter current beat items).filter fun b =>
        decide (b.key.measure = measure)).map TimedBeat.load).sum
      = lyricLoad measure current items := by
  induction items generalizing current beat with
  | nil => rfl
  | cons item rest ih =>
      cases item with
      | barline => exact ih (current + 1) 1
      | unit m => exact ih current beat
      | beat b =>
          unfold lyricBeats lyricLoad
          by_cases hmeasure : current = measure
          · rw [List.filter_cons_of_pos (by simpa using hmeasure), List.map_cons, List.sum_cons, ih,
              if_pos hmeasure]
            unfold TimedBeat.load
            rw [TimedBeat.length_rows]
          · rw [List.filter_cons_of_neg (by simpa using hmeasure), ih, if_neg hmeasure, zero_add]

/-- The beats of a measure of a score are those of its block. -/
theorem Score.timeline_inMeasure {s : Score}
    (hs : ∀ b ∈ s.blocks, ∀ beat, LyricItem.beat beat ∈ b.lyrics → 1 ≤ beat.duration) {number : Nat}
    {block : Block} (h : s.blocks[number]? = some block) (measure : Int) :
    (s.timeline.filter fun b => decide (b.key.inMeasure = ⟨number + 1, measure⟩))
      = (block.timeline (number + 1)).filter fun b => decide (b.key.measure = measure) := by
  -- other blocks have other numbers
  have hother : ∀ (bs : List Block) (n : Nat), (∀ b ∈ bs, b ∈ s.blocks) →
      (∀ b ∈ bs.zipIdx n, b.2 ≠ number + 1) →
      ((bs.zipIdx n).flatMap fun b => b.1.timeline b.2).filter
        (fun b => decide (b.key.inMeasure = ⟨number + 1, measure⟩)) = [] := by
    intro bs n hbs hne
    refine List.filter_eq_nil_iff.2 fun b hb => ?_
    obtain ⟨c, hc, hb⟩ := List.mem_flatMap.1 hb
    have hblock := (mem_lyricBeats (hs c.1 (hbs c.1 (List.fst_mem_of_mem_zipIdx hc))) hb).1
    have hnumber := hne c hc
    simp only [decide_eq_true_eq]
    intro hkey
    have hown : b.key.block = number + 1 := congrArg MeasureKey.block hkey
    omega
  obtain ⟨hlt, hget⟩ := List.getElem?_eq_some_iff.1 h
  have hsplit : s.blocks = s.blocks.take number ++ block :: s.blocks.drop (number + 1) := by
    rw [← hget, ← List.drop_eq_getElem_cons hlt, List.take_append_drop]
  have hlength : (s.blocks.take number).length = number := List.length_take_of_le hlt.le
  have hown : ∀ b ∈ block.timeline (number + 1), b.key.block = number + 1 := fun b hb =>
    (mem_lyricBeats (hs block (List.mem_of_getElem? h)) hb).1
  have hbefore := hother (s.blocks.take number) 1 (fun b hb => List.mem_of_mem_take hb) fun b hb => by
    have hend := (List.mem_zipIdx hb).2.1
    omega
  have hbehind := hother (s.blocks.drop (number + 1)) (1 + number + 1)
    (fun b hb => List.mem_of_mem_drop hb) fun b hb => by
      have hstart := (List.mem_zipIdx hb).1
      omega
  have hnumber : ((1 + number : Nat) : Int) = number + 1 := by omega
  unfold Score.timeline
  rw [hsplit, List.zipIdx_append, List.zipIdx_cons, hlength, List.flatMap_append, List.flatMap_cons,
    List.filter_append, List.filter_append, hbefore, hbehind, List.nil_append, List.append_nil, hnumber]
  refine List.filter_congr fun b hb => decide_eq_decide.2 ?_
  constructor
  · exact congrArg MeasureKey.measure
  · intro hmeasure
    unfold BeatKey.inMeasure
    rw [hown b hb, hmeasure]

/-- Of beats that are not empty, neither the durations nor the rows come to more than their load. -/
theorem sum_bounds {bs : List TimedBeat} (h : ∀ b ∈ bs, 1 ≤ b.beat.duration ∧ b.rows ≠ []) :
    (bs.length ≤ (bs.map (·.beat.duration)).sum
        ∧ (bs.map (·.beat.duration)).sum ≤ (bs.map TimedBeat.load).sum)
      ∧ bs.length ≤ (bs.map (·.rows.length)).sum
        ∧ (((bs.map (·.rows.length)).sum : Nat) : Int) ≤ (bs.map TimedBeat.load).sum := by
  induction bs with
  | nil => exact ⟨⟨le_refl _, le_refl _⟩, le_refl _, le_refl _⟩
  | cons b bs ih =>
      obtain ⟨⟨hduration, hrows⟩, hbs⟩ := List.forall_mem_cons.1 h
      have hlength : 1 ≤ b.rows.length := List.length_pos_iff.2 hrows
      have hmore := ih hbs
      simp only [List.map_cons, List.sum_cons, List.length_cons, TimedBeat.load] at hmore ⊢
      omega

/-- The beats of a measure are no more than what its block asks of it. -/
theorem Measure.Accounts.beats_bounds {m : Measure} {b : TimedBeat} {bs : List TimedBeat}
    (h : m.Accounts b bs) (hbs : ∀ b' ∈ b :: bs, 1 ≤ b'.beat.duration ∧ b'.rows ≠ [])
    (hcounter : 0 ≤ b.counter.getD 0) :
    0 ≤ m.beats ∧ m.beats ≤ b.counter.getD 0 + ((b :: bs).map TimedBeat.load).sum := by
  have hcounted : 1 ≤ m.counted ∧ m.counted ≤ ((b :: bs).map TimedBeat.load).sum := by
    obtain ⟨hdurations, hrows⟩ := sum_bounds hbs
    rw [h.counted]
    rw [List.length_cons] at hdurations hrows
    split <;> omega
  rw [h.beats]
  split
  · cases hc : b.counter with
    | none =>
        rw [hc] at hcounter
        simp only [pickupBeats, Option.getD_none]
        omega
    | some counter =>
        rw [hc] at hcounter
        simp only [pickupBeats, Option.getD_some] at hcounter ⊢
        omega
  · omega

-- ============================================================= tables

/-- A score whose measures are short enough to be counted in writing. -/
def Score.Writable (s : Score) : Prop :=
  ∀ b ∈ s.blocks, ∀ measure, b.load measure < 10 ^ maxDigits

/-- The measure of a beat with its block: what its beats come to is what the block asks of it. -/
theorem Score.WellFormed.load_inMeasure {s : Score} (hs : s.WellFormed) {b : TimedBeat}
    (hb : b ∈ s.timeline) :
    0 ≤ b.counter.getD 0 ∧ ∃ block ∈ s.blocks, block.load b.key.measure = b.counter.getD 0
      + ((s.timeline.filter fun b' =>
          decide (b'.key.inMeasure = b.key.inMeasure)).map TimedBeat.load).sum := by
  obtain ⟨number, block, hblock, hnumber, hcounter, -⟩ := mem_timeline hs.one_le_duration hb
  have hmem := List.mem_of_getElem? hblock
  have hkey : b.key.inMeasure = ⟨number + 1, b.key.measure⟩ := by
    unfold BeatKey.inMeasure
    rw [hnumber]
  refine ⟨?_, block, hmem, ?_⟩
  · rw [hcounter]
    cases hc : block.counter with
    | none => exact le_refl 0
    | some counter => exact ((hs.2 block hmem).2.2.2 counter hc).1
  · rw [hkey, Score.timeline_inMeasure hs.one_le_duration hblock, hcounter]
    unfold Block.load Block.timeline
    rw [sum_load_lyricBeats]

theorem Score.Writable.beat {s : Score} (hs : s.WellFormed) (hw : s.Writable) {b : TimedBeat}
    (hb : b ∈ s.timeline) : b.load < 10 ^ maxDigits := by
  obtain ⟨hcounter, block, hblock, hload⟩ := hs.load_inMeasure hb
  have hpos : ∀ n ∈ (s.timeline.filter fun b' =>
      decide (b'.key.inMeasure = b.key.inMeasure)).map TimedBeat.load, 0 ≤ n := by
    intro n hn
    obtain ⟨b', hb', rfl⟩ := List.mem_map.1 hn
    have := (hs.beat (List.mem_filter.1 hb').1).1
    unfold TimedBeat.load
    omega
  have hle := List.single_le_sum hpos b.load
    (List.mem_map_of_mem (List.mem_filter.2 ⟨hb, decide_eq_true rfl⟩))
  have hlt := hw block hblock b.key.measure
  omega

namespace Table.Renders

variable {s : Score} {t : Table}

/-- A measure has no more beats than one of the blocks asks of it, and no fewer than none. -/
theorem exists_load (ht : t.Renders s) (hs : s.WellFormed) {m : Measure} (hm : m ∈ t.measures) :
    0 ≤ m.beats ∧ ∃ block ∈ s.blocks, ∃ measure, m.beats ≤ block.load measure := by
  obtain ⟨b, bs, hbs, haccounts⟩ := ht.timed.accounts (fun b hb => (hs.beat hb).2) hm
  have hmem : ∀ b' ∈ b :: bs, b' ∈ s.timeline := fun b' hb' => (List.mem_filter.1 (hbs ▸ hb')).1
  obtain ⟨hcounter, block, hblock, hload⟩ := hs.load_inMeasure (hmem b List.mem_cons_self)
  rw [haccounts.key, hbs] at hload
  obtain ⟨hpos, hle⟩ := haccounts.beats_bounds (fun b' hb' => hs.beat (hmem b' hb')) hcounter
  exact ⟨hpos, block, hblock, b.key.measure, by omega⟩

theorem measure_fits (ht : t.Renders s) (hs : s.WellFormed) (hw : s.Writable) {m : Measure}
    (hm : m ∈ t.measures) : fits m.beats = true ∧ ratFits m.unit = true := by
  obtain ⟨hpos, block, hblock, measure, hle⟩ := ht.exists_load hs hm
  have hlt := hw block hblock measure
  refine ⟨fits_of_lt hpos (by omega), ?_⟩
  have hfirst : m.first.1 ∈ t := by
    have hmembers : m.first ∈ m.members := List.mem_cons_self
    rw [(mem_measures hm).members] at hmembers
    exact List.fst_mem_of_mem_zipIdx (List.mem_filter.1 (List.mem_filter.1 hmembers).1).1
  rw [(mem_measures hm).unit]
  exact ratFits_of_known (ht.sound _ hfirst).effectiveUnit_known

theorem length_fits (ht : t.Renders s) (hs : s.WellFormed) (hw : s.Writable) {g : BeatGroup}
    (hg : g ∈ t.beats) : lengthFits g.length = true := by
  obtain ⟨b, hb, his⟩ := exists_of_forall₂ (ht.timed.beats_are (fun b hb => (hs.beat hb).2)
    (Score.nodup_timeline hs.one_le_duration)).flip hg
  obtain ⟨hduration, hrows⟩ := hs.beat hb
  have hload := hw.beat hs hb
  unfold TimedBeat.load at hload
  have hcount : 1 ≤ g.count := Nat.le_add_left 1 _
  have hcounted := his.count_eq
  unfold BeatGroup.length splitLength
  split
  · obtain ⟨hone, hle⟩ := splitDenominator_bounds hcount true
    rw [← Int.cast_one]
    exact lengthFits_div (le_refl 1) hone (by omega) (by omega)
  · obtain ⟨hone, hle⟩ := splitDenominator_bounds hcount false
    rw [his.duration_eq hduration]
    exact lengthFits_div hduration hone (by omega) (by omega)

end Table.Renders

theorem canWrite_of_forall {ms : List Measure}
    (h : ∀ m ∈ ms, fits m.beats = true ∧ ratFits m.unit = true) (previous : Option Measure) :
    Measure.canWrite previous ms = true := by
  induction ms generalizing previous with
  | nil => cases previous <;> rfl
  | cons m ms ih =>
      obtain ⟨⟨hbeats, hunit⟩, hms⟩ := List.forall_mem_cons.1 h
      cases previous <;> simp [Measure.canWrite, hbeats, hunit, ih hms]

/-- The marks of a table are read, if each of them can be. -/
theorem exists_declarations {t : Table} {block : Option Int} {start : Nat} {rows : List PlacedRow}
    (h : ∀ p ∈ rows, p.1.source = .lyric → p.1.kind = .unit → ∃ unit, declaredUnit? p.1.raw = .ok unit) :
    ∃ ds, Units.declarations t block start rows = .ok ds := by
  induction rows generalizing block start with
  | nil => exact ⟨[], rfl⟩
  | cons p rows ih =>
      obtain ⟨r, index⟩ := p
      obtain ⟨hmark, hrows⟩ := List.forall_mem_cons.1 h
      unfold Units.declarations
      split
      · exact ih hrows
      · next hlyric =>
        dsimp only
        split
        · exact ih hrows
        split
        · next hunit =>
          obtain ⟨unit, hread⟩ := hmark (not_not.1 hlyric) hunit
          obtain ⟨more, hmore⟩ := @ih (some r.block) (if block = some r.block then start else index) hrows
          rw [hread, hmore]
          exact ⟨_, rfl⟩
        · exact ih hrows

/-- The runs of a beat are dotted, if its meter can be read. -/
theorem PlacedBeat.exists_dotRuns {b : PlacedBeat} (h : ∃ value, meterValue b.meter = .ok value)
    (position : Nat) (runs : List (List Row)) : ∃ out, b.dotRuns position runs = .ok out := by
  obtain ⟨value, hvalue⟩ := h
  have hdots : ∀ position size, ∃ dotted, b.dots position size = .ok dotted := by
    intro position size
    unfold PlacedBeat.dots PlacedBeat.staysInBeat
    split
    · rw [hvalue]
      exact ⟨_, rfl⟩
    · exact ⟨_, rfl⟩
  induction runs generalizing position with
  | nil => exact ⟨_, rfl⟩
  | cons run rest ih =>
      obtain ⟨dotted, hdotted⟩ := hdots position run.length
      obtain ⟨⟨text, count⟩, hrest⟩ := ih (position + run.length)
      unfold PlacedBeat.dotRuns
      rw [hdotted, hrest]
      dsimp only
      split <;> exact ⟨_, rfl⟩

theorem exists_withTies {t : Table} (h : ∀ r ∈ t, ∃ value, meterValue r.effectiveMeter = .ok value)
    (fold : Bool) : ∃ out, t.withTies fold = .ok out := by
  have hbeats : ∃ beats, t.dottedBeats = .ok beats := by
    refine exists_mapM_eq_ok.2 fun b hb => ?_
    have hgroup : b.toBeatGroup ∈ t.beats :=
      map_toBeatGroup_placedBeats t ▸ List.mem_map_of_mem hb
    have hfirst : b.first.1 ∈ t := (Table.isRhythm_of_mem_beat hgroup List.mem_cons_self).1
    obtain ⟨out, hout⟩ := b.exists_dotRuns (h _ hfirst) 0 b.runs
    exact ⟨(b, out), map_eq_ok.2 ⟨out, hout, rfl⟩⟩
  obtain ⟨beats, hbeats⟩ := hbeats
  unfold Table.withTies
  split
  · unfold Table.folding
    rw [hbeats]
    exact ⟨_, rfl⟩
  · exact ⟨_, rfl⟩

/-- A table is played, if its letters exist. -/
theorem exists_play {groups : List BeatGroup} {state : Performance.State} {rows : List Row}
    (h : ∀ r ∈ rows, ∀ name ∈ r.letter, ∃ l : Letter, name = l.name) :
    ∃ notes, Performance.play groups state rows = .ok notes := by
  induction rows generalizing state with
  | nil => exact ⟨_, rfl⟩
  | cons r rows ih =>
      obtain ⟨hr, hrows⟩ := List.forall_mem_cons.1 h
      have hmore : ∀ (state : Performance.State) (front : List NoteEvent),
          ∃ notes, (Performance.play groups state rows).map (front ++ ·) = .ok notes := by
        intro state front
        obtain ⟨notes, hnotes⟩ := @ih state hrows
        exact ⟨front ++ notes, map_eq_ok.2 ⟨notes, hnotes, rfl⟩⟩
      unfold Performance.play
      split
      · exact ih hrows
      dsimp only
      split
      · exact ih hrows
      split
      · exact ih hrows
      · split
        · next name octave hattack hletter _ =>
          obtain ⟨l, rfl⟩ := hr name hletter
          have hknown : Letter.ofName l.name = .ok l := by cases l <;> rfl
          rw [hknown]
          exact hmore _ _
        · exact ih hrows
        · exact hmore _ _

-- ============================================================= stages

theorem Context.exists_title {c : Context} {s : Score} (h : c.piece = .ofScore s) :
    ∃ title, c.title = .ok title := by
  unfold Context.title
  rw [h]
  cases c.options.title <;> exact ⟨_, rfl⟩

/-- Every stage goes on from a table that renders the score. -/
theorem Stage.exists_run {s : Score} (hs : s.WellFormed) (hw : s.Writable) (stage : Stage) {c : Context}
    {t : Table} (hpiece : c.piece = .ofScore s) (ht : t.Renders s) :
    ∃ c' t', stage.run c t = .ok (c', t') := by
  simp only [Stage.run_eq_ok_iff]
  cases stage with
  | layout => exact ⟨_, _, .layout (congrArg Piece.score hpiece)⟩
  | voicing =>
      obtain ⟨voiced, hvoiced⟩ : ∃ voiced, t.voiced = .ok voiced :=
        exists_resolve fun r hr _ => (ht.sound r hr).letter
      exact ⟨_, _, .voicing hvoiced⟩
  | underlay => exact ⟨_, _, .underlay⟩
  | heading =>
      obtain ⟨title, htitle⟩ := Context.exists_title hpiece
      exact ⟨_, _, .heading htitle⟩
  | units =>
      obtain ⟨ds, hds⟩ : ∃ ds, t.declarations = .ok ds :=
        exists_declarations fun p hp => (ht.sound p.1 (List.fst_mem_of_mem_zipIdx hp)).mark
      have hunits : (Stage.unitsUsed (t.withUnitsOf ds)).all ratFits = true := by
        refine List.all_eq_true.2 fun unit hunit => ?_
        obtain ⟨r, hr, hunit⟩ := List.mem_filterMap.1 hunit
        exact ratFits_of_known
          (unit_of_mem_withUnitsOf (fun r hr => (ht.sound r hr).unit) hds hr unit hunit)
      exact ⟨_, _, .units hds hunits⟩
  | meters =>
      exact ⟨_, _, .meters (canWrite_of_forall (fun m hm => ht.measure_fits hs hw hm) none)⟩
  | keys => exact ⟨_, _, .keys⟩
  | notes => exact ⟨_, _, .notes (List.all_eq_true.2 fun g hg => ht.length_fits hs hw hg)⟩
  | ties =>
      obtain ⟨out, hout⟩ := exists_withTies (fun r hr => (ht.sound r hr).meter) c.options.fold
      exact ⟨_, _, .ties hout⟩
  | assembly => exact ⟨_, _, .assembly⟩

/-- Stages behind the layout lead on from a table that renders the score. -/
theorem exists_completes {s : Score} (hs : s.WellFormed) (hw : s.Writable) {stages : List Stage}
    (hlayout : .layout ∉ stages) {c : Context} {t : Table} (hpiece : c.piece = .ofScore s)
    (ht : t.Renders s) : ∃ c' t', Completes c t stages c' t' := by
  induction stages generalizing c t with
  | nil => exact ⟨c, t, .done c t⟩
  | cons stage rest ih =>
      obtain ⟨next, table, hstage⟩ := Stage.exists_run hs hw stage hpiece ht
      have hbehind : stage ≠ .layout := fun heq => hlayout (heq ▸ List.mem_cons_self)
      obtain ⟨c', t', hrest⟩ := ih (fun hmem => hlayout (List.mem_cons_of_mem _ hmem))
        ((Stage.run_keeps hstage).2.trans hpiece) (Stage.run_renders_of_renders hstage hbehind ht)
      exact ⟨c', t', .step hstage hrest⟩

/-- The stages of a run lead from nothing to a table. -/
theorem Score.exists_completes {s : Score} (hs : s.WellFormed) (hw : s.Writable) (o : Options) :
    ∃ c t, Completes (.start o (.ofScore s)) [] o.stages c t := by
  rcases o.stages_eq with hstages | ⟨rest, hstages, hrest⟩
  · rw [hstages]
    exact ⟨_, _, .done _ _⟩
  · rw [hstages]
    obtain ⟨c, t, h⟩ := LyricScore.exists_completes hs hw hrest
      (c := (Context.start o (.ofScore s)).record Stage.layout.name (Stage.layoutFigures s.layout))
      rfl (Score.layout_renders hs)
    exact ⟨c, t, .step (Stage.run_eq_ok_iff.2 (.layout rfl)) h⟩

-- =============================================================== runs

/-- A text that is read goes through all stages, up to the last one or the one asked for, and what
comes out can be played. The only numbers that could be too long are those of a measure: the counter
of its block, the durations of its beats and the number of their segments. -/
theorem run_and_events_succeed {text : String} {s : Score} (hparse : Score.parse text = .ok s)
    (hload : ∀ b ∈ s.blocks, ∀ measure, b.load measure < 10 ^ maxDigits) {o : Options}
    (hstop : ∀ stop ∈ o.stopAt, stop ∈ stepNames) :
    ∃ result notes, run (.text text) o = .ok result ∧ result.table.events = .ok notes := by
  have hs := Reader.wellFormed_of_parse hparse
  have hcomplaint : o.complaint? = none := by
    unfold Options.complaint?
    cases hstopAt : o.stopAt with
    | none => rfl
    | some stop => exact if_pos (List.contains_iff_mem.2 (hstop stop hstopAt))
  have hpiece : Input.load (.text text) = .ok (.ofScore s) := map_eq_ok.2 ⟨s, hparse, rfl⟩
  obtain ⟨c, t, hcompletes⟩ := Score.exists_completes hs hload o
  obtain ⟨hnone, hlast⟩ := hcompletes.runStages_eq
  have hfailure : (trace (.text text) o).failure = none := by
    unfold trace
    rw [hcomplaint, hpiece]
    exact hnone
  obtain ⟨result, hresult, htable⟩ := Trace.exists_result hfailure
  have hrendered : result.table = t := by
    rw [htable]
    unfold trace
    rw [hcomplaint, hpiece]
    dsimp only
    rw [Trace.lastTable_cons, hlast]
  have hletters : ∀ r ∈ result.table, ∀ name ∈ r.letter, ∃ l : Letter, name = l.name := by
    rw [hrendered]
    rcases renders_of_completes hs hcompletes with rfl | hrenders
    · exact fun r hr => absurd hr List.not_mem_nil
    · exact fun r hr => (hrenders.sound r hr).letter
  obtain ⟨notes, hnotes⟩ := exists_play hletters
  exact ⟨result, notes, hresult, hnotes⟩

/-- A pickup on its third beat, with a tuplet and an unknown unit, up to the notes. -/
theorem run_and_events_succeed_pickup :
    ∃ result notes,
      run (.text "la.*.; | [7] 2.lu -\nK#1 c | ^e\ncounter: 3") { stopAt := some "notes" } = .ok result
        ∧ result.table.events = .ok notes := by
  have hparse : Score.parse "la.*.; | [7] 2.lu -\nK#1 c | ^e\ncounter: 3"
      = .ok ⟨[⟨[.beat ⟨[.syllable "la", .marker .attack, .marker .rest], 1⟩, .barline,
          .unit ⟨7, false⟩, .beat ⟨[.syllable "lu"], 2⟩, .beat ⟨[.marker .tie], 1⟩],
        ⟨some (.key ⟨"#", 1⟩), [.pitch ⟨"c", .plain, ""⟩, .barline, .pitch ⟨"e", .plain, "^"⟩]⟩,
        some 3⟩], ""⟩ := by decide +kernel
  have hshort : (100 : Int) ≤ 10 ^ maxDigits :=
    (by decide : (100 : Int) ≤ 10 ^ 2).trans (pow_le_pow_right₀ (by decide) (by decide))
  refine run_and_events_succeed hparse (fun b hb measure => ?_) (by decide)
  obtain rfl := List.mem_singleton.1 hb
  refine lt_of_lt_of_le ?_ hshort
  simp only [Block.load, lyricLoad, Option.getD_some]
  split <;> split <;> decide

end LyricScore
