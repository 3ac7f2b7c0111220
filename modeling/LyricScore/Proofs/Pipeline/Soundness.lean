/-
What every stage hands on. A table on its way from a score to its tune renders the score: its rows
that take time are the beats of the score, in the order of their measures, the rows of a measure
share one unit, and every row can be read by the stages to come.

Each stage keeps this, whatever stages ran before it, so it holds along every run. Most of it is in
columns that a stage does not touch, and follows from the footprint of the stage. Three stages have
something to show: the underlay takes its letters from the pitches, the units come from the marks,
and the meters are written by the measures.
-/
import LyricScore.Proofs.Pipeline.Footprint
import LyricScore.Proofs.Pipeline.Stages
import LyricScore.Proofs.Table.Accounts
import LyricScore.Proofs.Table.Regions
import LyricScore.Proofs.Table.Sustain

namespace LyricScore

open Text

-- ============================================================== cells

theorem Cell.ofInteger?_inj {a b : Option Int} (h : Cell.ofInteger? a = Cell.ofInteger? b) : a = b := by
  have hread : ∀ n, (Cell.ofInteger? n).integer? = n := fun n => by cases n <;> rfl
  rw [← hread a, h, hread]

theorem Cell.ofFraction?_inj {a b : Option Rat} (h : Cell.ofFraction? a = Cell.ofFraction? b) :
    a = b := by
  have hread : ∀ q, (Cell.ofFraction? q).fraction? = q := fun q => by cases q <;> rfl
  rw [← hread a, h, hread]

theorem Cell.ofText?_inj {a b : Option String} (h : Cell.ofText? a = Cell.ofText? b) : a = b := by
  have hread : ∀ s, (Cell.ofText? s).text? = s := fun s => by cases s <;> rfl
  rw [← hread a, h, hread]

/-- The columns of an outline. -/
def outlineColumns : List Column :=
  [.source, .block, .kind, .raw, .measure, .beat, .subdivision, .duration, .shift, .pickup]

theorem Row.outline_eq {r r' : Row}
    (h : ∀ column ∈ outlineColumns, r'.record column = r.record column) : r'.outline = r.outline := by
  have hsource : r'.source = r.source := Cell.source.inj (h .source (by decide))
  have hblock : r'.block = r.block := Cell.integer.inj (h .block (by decide))
  have hkind : r'.kind = r.kind := Cell.kind.inj (h .kind (by decide))
  have hraw : r'.raw = r.raw := Cell.text.inj (h .raw (by decide))
  have hmeasure : r'.measure = r.measure := Cell.ofInteger?_inj (h .measure (by decide))
  have hbeat : r'.beat = r.beat := Cell.ofInteger?_inj (h .beat (by decide))
  have hsubdivision : r'.subdivision = r.subdivision :=
    Cell.ofInteger?_inj (h .subdivision (by decide))
  have hduration : r'.duration = r.duration := Cell.ofFraction?_inj (h .duration (by decide))
  have hshift : r'.shift = r.shift := Cell.integer.inj (h .shift (by decide))
  have hpickup : r'.pickup = r.pickup := Cell.ofInteger?_inj (h .pickup (by decide))
  unfold Row.outline
  rw [hsource, hblock, hkind, hraw, hmeasure, hbeat, hsubdivision, hduration, hshift, hpickup]

/-- What a stage does to a row: it leaves the outline alone, and one stage each writes the unit, the
letter and the meter. -/
structure Row.CarriedBy (s : Stage) (r r' : Row) : Prop where
  outline : r'.outline = r.outline
  unit : s ≠ .units → r'.unit = r.unit
  letter : s ≠ .underlay → r'.letter = r.letter
  meter : s ≠ .meters → r'.meter = r.meter

theorem Row.Keeps.carriedBy {s : Stage} {t : Table} {p : PlacedRow} {r' : Row}
    (h : p.1.Keeps (s.footprint t p) r') : p.1.CarriedBy s r' where
  outline := Row.outline_eq fun column hcolumn => h column fun hmem => by
    revert column
    cases s <;> simp [Stage.footprint, fieldColumns, outlineColumns]
  unit hs := Cell.ofFraction?_inj (h .unit (by cases s <;> simp_all [Stage.footprint, fieldColumns]))
  letter hs := Cell.ofText?_inj (h .letter (by cases s <;> simp_all [Stage.footprint, fieldColumns]))
  meter hs := Cell.ofText?_inj (h .meter (by cases s <;> simp_all [Stage.footprint, fieldColumns]))

/-- A stage between the layout and the tune, the heading apart, row by row. -/
theorem Stage.run_carries {s : Stage} {c c' : Context} {t t' : Table}
    (h : s.run c t = .ok (c', t')) (hlayout : s ≠ .layout) (hheading : s ≠ .heading) :
    List.Forall₂ (Row.CarriedBy s) t t' := by
  have hrows : List.Forall₂ (fun p r' => Row.CarriedBy s p.1 r') t.zipIdx t' :=
    (Stage.run_keeps_table h hlayout hheading).imp fun p r' hkeeps => hkeeps.carriedBy
  rwa [← List.forall₂_map_left_iff (f := Prod.fst), List.zipIdx_map_fst] at hrows

theorem exists_of_forall₂ {α β : Type} {R : α → β → Prop} {l : List α} {l' : List β}
    (h : List.Forall₂ R l l') {b : β} (hb : b ∈ l') : ∃ a ∈ l, R a b := by
  induction h with
  | nil => cases hb
  | cons hab _ ih =>
      rcases List.mem_cons.1 hb with rfl | hb
      · exact ⟨_, List.mem_cons_self, hab⟩
      · obtain ⟨a, ha, hab⟩ := ih hb
        exact ⟨a, List.mem_cons_of_mem _ ha, hab⟩

-- =============================================================== rows

/-- The units that marks can declare. -/
def knownUnits : List Rat :=
  [1, 1 / 2, 1 / 4, 1 / 8, 1 / 16]

theorem defaultUnit_known : defaultUnit ∈ knownUnits := by
  simp [defaultUnit, knownUnits]

theorem markedUnit?_known {n : Nat} {dotted : Bool} {unit : Rat}
    (h : markedUnit? n dotted = some unit) : unit ∈ knownUnits := by
  unfold markedUnit? at h
  split at h
  all_goals cases h
  all_goals simp [knownUnits]

theorem declaredUnit?_known {text : String} {unit : Option Rat} (h : declaredUnit? text = .ok unit) :
    unit.getD defaultUnit ∈ knownUnits := by
  unfold declaredUnit? at h
  split at h
  · obtain rfl := Except.ok.inj h
    exact defaultUnit_known
  · split at h
    · cases h
    · obtain rfl := Except.ok.inj h
      cases hmark : markedUnit? _ _ with
      | none => exact defaultUnit_known
      | some unit => exact markedUnit?_known hmark

/-- What the stages rely on in a row. -/
structure Row.Sound (r : Row) : Prop where
  letter : ∀ name ∈ r.letter, ∃ l : Letter, name = l.name
  unit : ∀ unit ∈ r.unit, unit ∈ knownUnits
  meter : ∃ value, meterValue r.effectiveMeter = .ok value
  mark : r.source = .lyric → r.kind = .unit → ∃ unit, declaredUnit? r.raw = .ok unit

theorem Row.Sound.effectiveUnit_known {r : Row} (h : r.Sound) : r.effectiveUnit ∈ knownUnits := by
  unfold Row.effectiveUnit
  cases hunit : r.unit with
  | none => exact defaultUnit_known
  | some unit =>
      dsimp only
      split
      · exact defaultUnit_known
      · exact h.unit unit hunit

theorem meterValue_default : ∃ value, meterValue defaultMeter = .ok value :=
  ⟨4, by decide⟩

-- ============================================================= layout

/-- A row without unit and meter is sound if its letter and its mark are. -/
theorem Row.Sound.of_plain {r : Row} (hunit : r.unit = none) (hmeter : r.meter = none)
    (hletter : ∀ name ∈ r.letter, ∃ l : Letter, name = l.name)
    (hmark : r.source = .lyric → r.kind = .unit → ∃ unit, declaredUnit? r.raw = .ok unit) :
    r.Sound := by
  refine ⟨hletter, fun unit h => ?_, ?_, hmark⟩
  · rw [hunit] at h
    cases h
  · unfold Row.effectiveMeter
    rw [hmeter]
    exact meterValue_default

/-- The rows of a score's layout have no unit and no meter yet, and are sound. -/
theorem sound_of_mem_layout {s : Score} (hs : s.WellFormed) {r : Row} (hr : r ∈ s.layout) :
    r.unit = none ∧ r.meter = none ∧ r.Sound := by
  have hletter := letter_of_mem_layout hs.spelled hr
  obtain ⟨b, hb, number, hlays⟩ := Score.lays_of_mem_layout hr
  obtain ⟨-, hlyrics, -⟩ := hs.2 b hb
  cases hlays with
  | lyricBar =>
      refine ⟨rfl, rfl, .of_plain rfl rfl (fun name hname => ?_) fun _ hkind => ?_⟩
      · cases hname
      · cases hkind
  | unit _ hmem =>
      refine ⟨rfl, rfl, .of_plain rfl rfl (fun name hname => ?_) fun _ _ => ?_⟩
      · cases hname
      · exact ⟨_, declaredUnit?_text (hlyrics _ hmem).2⟩
  | @segment _ _ _ segment =>
      refine ⟨rfl, rfl, .of_plain rfl rfl (fun name hname => ?_) fun _ hkind => ?_⟩
      · cases hname
      · exact absurd hkind segment.1.kind_ne_unit
  | opening | pitchBar | key | pitch =>
      refine ⟨rfl, rfl, .of_plain rfl rfl (hletter rfl) fun hlyric => ?_⟩
      cases hlyric

-- ========================================================== rendering

/-- A table on its way from a score to its tune. -/
structure Table.Renders (s : Score) (t : Table) : Prop where
  measured : t.Measured
  timed : t.Times s.timeline
  unitary : t.Unitary
  sound : ∀ r ∈ t, r.Sound

theorem Table.Times.of_outline {t t' : Table} {beats : List TimedBeat} (h : t.Times beats)
    (houtline : t'.map Row.outline = t.map Row.outline) : t'.Times beats := by
  have hfilter : ∀ t : Table, (t.filter Row.isRhythm).map Row.outline
      = (t.map Row.outline).filter Row.isRhythm := fun t => by
    rw [List.filter_map]
    rfl
  unfold Table.Times at *
  rw [hfilter, houtline, ← hfilter, h]

theorem Score.layout_renders {s : Score} (hs : s.WellFormed) : s.layout.Renders s where
  measured := s.layout_measured
  timed := s.layout_times
  unitary r hr r' hr' k _ _ := by
    unfold Row.effectiveUnit
    rw [(sound_of_mem_layout hs hr).1, (sound_of_mem_layout hs hr').1]
  sound r hr := (sound_of_mem_layout hs hr).2.2

theorem Table.Renders.withHeading {s : Score} {t : Table} (h : t.Renders s) (title : String) :
    (t.withHeading title).Renders s where
  measured := h.measured.withHeading title
  timed := by
    have hsilent : (headingRows title).filter Row.isRhythm = [] := by
      refine List.filter_eq_nil_iff.2 fun r hr => ?_
      simp [Row.isRhythm, (source_of_mem_headingRows hr).1]
    unfold Table.Times Table.withHeading
    rw [List.filter_append, hsilent]
    exact h.timed
  unitary r hr r' hr' k hk hk' := by
    have hown : ∀ r ∈ t.withHeading title, r.measureKey? = some k → r ∈ t := by
      intro r hr hk
      refine (List.mem_append.1 hr).resolve_left fun hheading => ?_
      have hrhythm := (measureKey?_eq_some.1 hk).1
      rw [Row.isRhythm, (source_of_mem_headingRows hheading).1] at hrhythm
      cases hrhythm
    exact h.unitary r (hown r hr hk) r' (hown r' hr' hk') k hk hk'
  sound := by
    refine List.forall_mem_append.2 ⟨fun r hr => ?_, h.sound⟩
    obtain ⟨field, -, rfl⟩ := List.mem_map.1 hr
    refine .of_plain rfl rfl (fun name h => ?_) fun h => ?_
    · cases h
    · cases h

-- ============================================================= stages

/-- The underlay takes its letters from the pitches. -/
theorem letter_of_mem_underlaid {t : Table}
    (h : ∀ r ∈ t, ∀ name ∈ r.letter, ∃ l : Letter, name = l.name) {r : Row}
    (hr : r ∈ t.underlaid.map (·.1)) : ∀ name ∈ r.letter, ∃ l : Letter, name = l.name := by
  have htones : ∀ block, ∀ tone ∈ t.tones block, tone.Valid := fun block tone htone =>
    valid_of_mem_tones (fun r hr _ => h r hr) htone
  suffices key : ∀ (rows : List Row) (state : Underlay.State), state.Valid →
      (∀ r ∈ rows, ∀ name ∈ r.letter, ∃ l : Letter, name = l.name) →
      ∀ r ∈ (Underlay.run t.opensWithHold t.tones state rows).map (·.1),
        ∀ name ∈ r.letter, ∃ l : Letter, name = l.name by
    refine key t {} ⟨fun tone h => ?_, fun tone h => ?_⟩ h r hr
    · cases h
    · cases h
  clear hr r
  intro rows
  induction rows with
  | nil => exact fun state _ _ r hr => absurd hr List.not_mem_nil
  | cons r rows ih =>
      intro state hstate hrows
      obtain ⟨hr, hrows⟩ := List.forall_mem_cons.1 hrows
      unfold Underlay.run
      split
      · obtain ⟨hvalid, hrow⟩ := step_spec htones (hstate.enter t.opensWithHold r) (r := r)
        refine List.forall_mem_cons.2 ⟨?_, ih _ hvalid hrows⟩
        dsimp only
        rcases hrow with hrow | ⟨tone, ⟨l, hl⟩, -, hrow⟩
        · rw [hrow]
          exact hr
        · rw [hrow]
          intro name hname
          obtain rfl := Option.some.inj hname
          exact ⟨l, hl⟩
      · exact List.forall_mem_cons.2 ⟨hr, ih state hstate hrows⟩

theorem declarations_known {t : Table} {block : Option Int} {start : Nat} {rows : List PlacedRow}
    {ds : List Declaration} (h : Units.declarations t block start rows = .ok ds) :
    ∀ d ∈ ds, d.unit ∈ knownUnits := by
  intro d hd
  obtain ⟨unit, -, hunit, heq, -⟩ := exists_of_mem_declarations h d hd
  rw [heq]
  exact declaredUnit?_known hunit

/-- The units of a table come from its marks. -/
theorem unit_of_mem_withUnitsOf {t : Table} (h : ∀ r ∈ t, ∀ unit ∈ r.unit, unit ∈ knownUnits)
    {ds : List Declaration} (hds : t.declarations = .ok ds) {r : Row} (hr : r ∈ t.withUnitsOf ds) :
    ∀ unit ∈ r.unit, unit ∈ knownUnits := by
  suffices key : ∀ (ps : List PlacedRow) (unit : Rat), unit ∈ knownUnits →
      (∀ p ∈ ps, ∀ unit ∈ p.1.unit, unit ∈ knownUnits) →
      ∀ r ∈ Units.spread ds unit ps, ∀ unit ∈ r.unit, unit ∈ knownUnits by
    obtain ⟨q, hq, rfl⟩ := List.mem_map.1 hr
    have hspread := key t.zipIdx defaultUnit defaultUnit_known
      (fun p hp => h p.1 (List.fst_mem_of_mem_zipIdx hp)) q hq
    split <;> exact hspread
  clear hr r
  intro ps
  induction ps with
  | nil => exact fun unit _ _ r hr => absurd hr List.not_mem_nil
  | cons p ps ih =>
      intro unit hunit hps
      obtain ⟨hp, hps⟩ := List.forall_mem_cons.1 hps
      have hnext : (Units.declaredAt? ds p.2).getD unit ∈ knownUnits := by
        cases hdeclared : Units.declaredAt? ds p.2 with
        | none => exact hunit
        | some declared =>
            obtain ⟨d, hd, -, rfl⟩ := declaredAt?_eq_some hdeclared
            exact declarations_known hds d hd
      unfold Units.spread
      refine List.forall_mem_cons.2 ⟨?_, ih _ hnext hps⟩
      split
      · intro unit hunit
        obtain rfl := Option.some.inj hunit
        exact hnext
      · exact hp

/-- Behind the meters a row has its own meter or that of a measure. -/
theorem meter_of_mem_withMetersText {P : String → Prop} {t : Table} (h : ∀ r ∈ t, P r.effectiveMeter)
    (hmeasures : ∀ m ∈ t.measures, P (meterText m.beats m.unit.den)) {r : Row}
    (hr : r ∈ t.withMetersText) : P r.effectiveMeter := by
  rw [withMetersText_eq] at hr
  obtain ⟨q, hq, rfl⟩ := List.mem_map.1 hr
  have hrow : P q.effectiveMeter := by
    obtain ⟨p, hp, rfl⟩ := List.mem_map.1 hq
    unfold Table.metered
    split
    · exact h p.1 (List.fst_mem_of_mem_zipIdx hp)
    · next m hm =>
      obtain ⟨key, -, hfound⟩ := Option.bind_eq_some_iff.1 hm
      have hmeasure : m.1 ∈ t.measures :=
        map_fst_announced t ▸ List.mem_map_of_mem (List.mem_of_find?_eq_some hfound)
      obtain ⟨directive, hmark⟩ := mark_spec m p.1 p.2
      rw [hmark, effectiveMeter_of_meterText (congrArg some (mem_measures hmeasure).meter)]
      exact hmeasures m.1 hmeasure
  split <;> exact hrow

/-- Rows of one measure share its unit. -/
theorem Table.Measured.unitary {t : Table} (h : t.Measured) {heading : Rat}
    (hunits : Linked Row.isRhythm (Row.InUnit heading) none t) : t.Unitary := by
  have htimed : ∀ r ∈ t, ∀ k, r.measureKey? = some k → ∃ place, (r, place) ∈ t.timed := by
    intro r hr k hk
    obtain ⟨place, hplace⟩ := List.getElem?_of_mem hr
    exact ⟨place, List.mem_filter.2
      ⟨List.mem_zipIdx_iff_getElem?.2 hplace, (measureKey?_eq_some.1 hk).1⟩⟩
  intro r hr r' hr' k hk hk'
  obtain ⟨place, hplace⟩ := htimed r hr k hk
  obtain ⟨place', hplace'⟩ := htimed r' hr' k hk'
  -- the measure of the one row is made of all rows of its key
  obtain ⟨m, hm, hmem⟩ := List.mem_flatMap.1 (h.flatMap_measures ▸ hplace)
  have hkey : some m.key = some k := ((h.counted hm).rows _ hmem).2.symm.trans hk
  have hmem' : (r', place') ∈ m.members := by
    rw [(mem_measures hm).members]
    exact List.mem_filter.2 ⟨hplace', decide_eq_true (hk'.trans hkey.symm)⟩
  exact (h.unit_of_mem hunits hm _ hmem).trans (h.unit_of_mem hunits hm _ hmem').symm

theorem Table.Unitary.of_carried {t t' : Table} (h : t.Unitary) {s : Stage} (hs : s ≠ .units)
    (hrows : List.Forall₂ (Row.CarriedBy s) t t') : t'.Unitary := by
  have hfrom : ∀ r' ∈ t', ∃ r ∈ t, r.measureKey? = r'.measureKey?
      ∧ r.effectiveUnit = r'.effectiveUnit := by
    intro r' hr'
    obtain ⟨r, hr, hcarried⟩ := exists_of_forall₂ hrows hr'
    refine ⟨r, hr, ?_, ?_⟩
    · have hkey : r.outline.measureKey? = r'.outline.measureKey? := by rw [hcarried.outline]
      exact hkey
    · unfold Row.effectiveUnit
      rw [hcarried.unit hs]
  intro r hr r' hr' k hk hk'
  obtain ⟨q, hq, hkey, hunit⟩ := hfrom r hr
  obtain ⟨q', hq', hkey', hunit'⟩ := hfrom r' hr'
  rw [← hunit, ← hunit']
  exact h q hq q' hq' k (hkey.trans hk) (hkey'.trans hk')

/-- A stage between the layout and the tune, the heading apart, keeps rows sound. -/
theorem Stage.run_sound {stage : Stage} {c c' : Context} {t t' : Table}
    (h : stage.run c t = .ok (c', t')) (hlayout : stage ≠ .layout) (hheading : stage ≠ .heading)
    (ht : ∀ r ∈ t, r.Sound) : ∀ r ∈ t', r.Sound := by
  intro r' hr'
  obtain ⟨r, hr, hcarried⟩ := exists_of_forall₂ (Stage.run_carries h hlayout hheading) hr'
  have hsound := ht r hr
  refine ⟨?_, ?_, ?_, ?_⟩
  · by_cases hunderlay : stage = .underlay
    · subst hunderlay
      cases Stage.run_eq_ok_iff.1 h
      exact letter_of_mem_underlaid (fun r hr => (ht r hr).letter) hr'
    · rw [hcarried.letter hunderlay]
      exact hsound.letter
  · by_cases hunits : stage = .units
    · subst hunits
      cases Stage.run_eq_ok_iff.1 h with
      | units hds => exact unit_of_mem_withUnitsOf (fun r hr => (ht r hr).unit) hds hr'
    · rw [hcarried.unit hunits]
      exact hsound.unit
  · by_cases hmeters : stage = .meters
    · subst hmeters
      cases Stage.run_eq_ok_iff.1 h
      exact meter_of_mem_withMetersText (P := fun meter => ∃ value, meterValue meter = .ok value)
        (fun r hr => (ht r hr).meter) (fun m _ => meterValue_meterText _ _) hr'
    · unfold Row.effectiveMeter
      rw [hcarried.meter hmeters]
      exact hsound.meter
  · have hmark : r'.outline.source = .lyric → r'.outline.kind = .unit →
        ∃ unit, declaredUnit? r'.outline.raw = .ok unit := by
      rw [hcarried.outline]
      exact hsound.mark
    exact hmark

/-- A stage behind the layout renders what the stages before it rendered. -/
theorem Stage.run_renders_of_renders {s : Score} {stage : Stage} {c c' : Context} {t t' : Table}
    (h : stage.run c t = .ok (c', t')) (hlayout : stage ≠ .layout) (ht : t.Renders s) :
    t'.Renders s := by
  by_cases hheading : stage = .heading
  · subst hheading
    cases Stage.run_eq_ok_iff.1 h
    exact ht.withHeading _
  have hrows := Stage.run_carries h hlayout hheading
  have houtline : t'.map Row.outline = t.map Row.outline := by
    rw [← List.forall₂_eq_eq_eq, List.forall₂_map_left_iff, List.forall₂_map_right_iff]
    exact List.Forall₂.flip (hrows.imp fun r r' hcarried => hcarried.outline)
  have hmeasured := ht.measured.of_outline houtline
  refine ⟨hmeasured, ht.timed.of_outline houtline, ?_, Stage.run_sound h hlayout hheading ht.sound⟩
  by_cases hunits : stage = .units
  · subst hunits
    cases Stage.run_eq_ok_iff.1 h with
    | units hds => exact hmeasured.unitary (withUnitsOf_linked ht.measured hds)
  · exact ht.unitary.of_carried hunits hrows

-- =============================================================== runs

theorem Completes.renders {s : Score} {c c' : Context} {t t' : Table} {stages : List Stage}
    (h : Completes c t stages c' t') (hlayout : .layout ∉ stages) (ht : t.Renders s) : t'.Renders s := by
  induction h with
  | done => exact ht
  | step hstage _ ih =>
      refine ih (fun hmem => hlayout (List.mem_cons_of_mem _ hmem)) ?_
      exact Stage.run_renders_of_renders hstage (fun heq => hlayout (heq ▸ List.mem_cons_self)) ht

theorem upTo_prefix (stop : String) (stages : List Stage) : upTo stop stages <+: stages := by
  induction stages with
  | nil => exact List.nil_prefix
  | cons s rest ih =>
      unfold upTo
      split
      · exact List.cons_prefix_cons.2 ⟨rfl, List.nil_prefix⟩
      · exact List.cons_prefix_cons.2 ⟨rfl, ih⟩

/-- A run has no stages, or it lays the score out first and once. -/
theorem Options.stages_eq (o : Options) :
    o.stages = [] ∨ ∃ rest, o.stages = .layout :: rest ∧ .layout ∉ rest := by
  have hprefix : o.stages <+: Stage.all := by
    unfold Options.stages
    split
    · exact List.prefix_rfl
    · split
      · exact List.nil_prefix
      · exact upTo_prefix _ _
  cases hstages : o.stages with
  | nil => exact Or.inl rfl
  | cons s rest =>
      rw [hstages] at hprefix
      obtain ⟨rfl, hrest⟩ := List.cons_prefix_cons.1 hprefix
      refine Or.inr ⟨rest, rfl, fun hmem => ?_⟩
      exact absurd (hrest.subset hmem) (by decide)

/-- A run has no table, or it goes on from the layout of its score. -/
theorem Completes.from_layout {s : Score} {o : Options} {c : Context} {t : Table}
    (h : Completes (.start o (.ofScore s)) [] o.stages c t) :
    t = [] ∨ ∃ next rest, .layout ∉ rest ∧ Completes next s.layout rest c t := by
  rcases o.stages_eq with hstages | ⟨rest, hstages, hrest⟩
  · rw [hstages] at h
    cases h
    exact Or.inl rfl
  · rw [hstages] at h
    cases h with
    | step hlayout h =>
        cases Stage.run_eq_ok_iff.1 hlayout with
        | layout hscore =>
        obtain rfl := Except.ok.inj hscore
        exact Or.inr ⟨_, rest, hrest, h⟩

theorem renders_of_completes {s : Score} (hs : s.WellFormed) {o : Options} {c : Context} {t : Table}
    (h : Completes (.start o (.ofScore s)) [] o.stages c t) : t = [] ∨ t.Renders s := by
  rcases h.from_layout with hnil | ⟨next, rest, hrest, h⟩
  · exact Or.inl hnil
  · exact Or.inr (h.renders hrest (Score.layout_renders hs))

-- =========================================================== measures

theorem Score.WellFormed.one_le_duration {s : Score} (hs : s.WellFormed) :
    ∀ b ∈ s.blocks, ∀ beat, LyricItem.beat beat ∈ b.lyrics → 1 ≤ beat.duration :=
  fun b hb _ hbeat => ((hs.2 b hb).2.1 _ hbeat).2.2.1

/-- The beats of a score that the format can express are not empty. -/
theorem Score.WellFormed.beat {s : Score} (hs : s.WellFormed) {b : TimedBeat} (hb : b ∈ s.timeline) :
    1 ≤ b.beat.duration ∧ b.rows ≠ [] := by
  obtain ⟨number, block, hblock, -, -, hitem⟩ := mem_timeline hs.one_le_duration hb
  have hform := (hs.2 block (List.mem_of_getElem? hblock)).2.1 _ hitem
  exact ⟨hform.2.2.1, TimedBeat.rows_ne_nil hform.1⟩

/-- The two accounts of a measure, behind any stage. From where the first beat of the measure starts,
the spans of its beats come to the beats that its meter counts, just if the measure is not in the
compound unit or has no beat of more than three rows, and it is not a pickup on the counter 0. -/
theorem run_start_add_spans_eq_beats_iff {text : String} {o : Options} {result : Result}
    (h : run (.text text) o = .ok result) {m : Measure} (hm : m ∈ result.table.measures) :
    ∃ (s : Score) (number : Nat) (block : Block) (first : PlacedBeat) (rest : List PlacedBeat),
      Score.parse text = .ok s ∧ s.blocks[number]? = some block ∧ m.key.block = number + 1
        ∧ result.table.placedBeats.filter (fun g => decide (g.key.inMeasure = m.key)) = first :: rest
        ∧ (first.start + sumTimes ((first :: rest).map fun g => g.span) = m.beats
          ↔ (m.unit ≠ compoundUnit ∨ ∀ g ∈ first :: rest, g.count ≤ 3)
            ∧ ¬ (m.key.measure = 0 ∧ block.counter = some 0)) := by
  obtain ⟨s, c, hparse, hcompletes, -⟩ := completes_of_run h
  have hs := Reader.wellFormed_of_parse hparse
  rcases renders_of_completes hs hcompletes with hnil | hrenders
  · rw [hnil] at hm
    cases hm
  obtain ⟨b, hb, hkey, first, rest, hfirst, hiff⟩ := hrenders.timed.agrees
    (fun b hb => (hs.beat hb).2) (Score.nodup_timeline hs.one_le_duration)
    (fun b hb => (hs.beat hb).1) hrenders.unitary hm
  obtain ⟨number, block, hblock, hnumber, hcounter, -⟩ := mem_timeline hs.one_le_duration hb
  rw [hcounter] at hiff
  refine ⟨s, number, block, first, rest, hparse, hblock, ?_, hfirst, hiff⟩
  rw [← hnumber, ← hkey]
  rfl

/-- A beat of four eighths. -/
def eighthsText : String :=
  "[8] la.la.la.la la\nc d e f g"

/-- The run of the eighths, with the beat of four. -/
def eighthsRun : {result // run (.text eighthsText) {} = .ok result
    ∧ ∃ m ∈ result.table.measures, m.unit = compoundUnit
      ∧ ∃ g ∈ result.table.placedBeats.filter (fun g => decide (g.key.inMeasure = m.key)),
        3 < g.count} :=
  checked (by decide +kernel)

theorem run_start_add_spans_eq_beats_iff_eighths :
    ∃ result m first rest, run (.text eighthsText) {} = .ok result ∧ m ∈ result.table.measures
      ∧ result.table.placedBeats.filter (fun g => decide (g.key.inMeasure = m.key)) = first :: rest
      ∧ first.start + sumTimes ((first :: rest).map fun g => g.span) ≠ m.beats := by
  obtain ⟨result, hrun, m, hm, hunit, g, hg, hcount⟩ := eighthsRun
  obtain ⟨s, number, block, first, rest, -, -, -, hfirst, hiff⟩ :=
    run_start_add_spans_eq_beats_iff hrun hm
  rw [hfirst] at hg
  refine ⟨result, m, first, rest, hrun, hm, hfirst, fun heq => ?_⟩
  rcases (hiff.1 heq).1 with hother | hshort
  · exact hother hunit
  · exact absurd (hshort g hg) (Nat.not_le.2 hcount)

end LyricScore
