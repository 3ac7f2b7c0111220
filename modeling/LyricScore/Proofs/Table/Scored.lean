/-
The table behind the notes. All that the stages wrote is gathered here: rows stand in their order,
tones and units are in place, directives and barlines read as what they announce, and every beat
carries the text of its rows. What does not depend on texts holds as well of every table that
differs in its texts only.
-/
import LyricScore.Proofs.Table.Keys
import LyricScore.Proofs.Table.Tones

namespace LyricScore

-- ============================================================= texts

/-- A row without its texts. -/
def Row.textless (r : Row) : Row :=
  { r with noteText := none, draftText := none, finalText := none }

/-- What does not depend on texts passes to a table with other texts. -/
theorem linked_of_textless {R : Option Row → Row → Prop}
    (hR : ∀ previous r, R (Option.map Row.textless previous) r.textless ↔ R previous r)
    {t t' : Table} (h : t'.map Row.textless = t.map Row.textless)
    (hlinked : Linked Row.isRhythm R none t) : Linked Row.isRhythm R none t' := by
  have hsame : ∀ t : Table, Linked Row.isRhythm R none (t.map Row.textless)
      ↔ Linked Row.isRhythm R none t := by
    intro t
    refine (@Linked.map_iff Row Row Row.isRhythm R Row.textless none t).trans ?_
    exact ⟨fun hl => hl.imp fun previous r _ _ => (hR previous r).1,
      fun hl => hl.imp fun previous r _ _ => (hR previous r).2⟩
  rw [← hsame, h, hsame]
  exact hlinked

theorem inUnit_textless {heading : Rat} (previous : Option Row) (r : Row) :
    Row.InUnit heading (previous.map Row.textless) r.textless ↔ Row.InUnit heading previous r := by
  cases previous with
  | none => exact Iff.rfl
  | some q =>
      refine exists_congr fun unit => and_congr Iff.rfl (and_congr Iff.rfl (and_congr ?_ ?_))
      · exact ⟨nofun, nofun⟩
      · refine ⟨fun h q' hq' => ?_, fun h q' hq' => ?_⟩
        · obtain rfl := Option.some.inj hq'
          exact h q.textless rfl
        · obtain rfl := Option.some.inj hq'
          exact h q rfl

theorem led_textless (previous : Option Row) (r : Row) :
    Row.Led (previous.map Row.textless) r.textless ↔ Row.Led previous r := by
  cases previous with
  | none =>
      have hnone : ∀ {P : Row → Prop}, ∀ q ∈ (none : Option Row), P q := fun q hq =>
        (Option.some_ne_none q hq.symm).elim
      exact ⟨fun h => ⟨h.directive, h.key, h.meter, hnone⟩,
        fun h => ⟨h.directive, h.key, h.meter, hnone⟩⟩
  | some q =>
      constructor
      · intro h
        refine ⟨h.directive, h.key, h.meter, fun q' hq' => ?_⟩
        obtain rfl := Option.some.inj hq'
        exact h.within q.textless rfl
      · intro h
        refine ⟨h.directive, h.key, h.meter, fun q' hq' => ?_⟩
        obtain rfl := Option.some.inj hq'
        exact h.within q rfl

-- ============================================================= beats

/-- A beat with the text of each of its rows, and the whole text on the first one. -/
structure BeatGroup.Noted (g : BeatGroup) : Prop where
  note : ∀ p ∈ g.members, p.1.noteText = some (g.token p)
  first : g.first.1.draftText = some g.fragment
  others : ∀ p ∈ g.others, p.1.draftText = some ""

/-- What a beat is does not depend on texts. -/
theorem BeatGroup.mapRows_spec {f : PlacedRow → Row} {g : BeatGroup}
    (hf : ∀ p ∈ g.members, (f p).textless = p.1.textless) :
    (g.mapRows f).count = g.count ∧ (g.mapRows f).unit = g.unit
      ∧ (g.mapRows f).duration = g.duration ∧ (g.mapRows f).length = g.length
      ∧ (g.mapRows f).opening = g.opening := by
  have hfirst := hf g.first List.mem_cons_self
  have hunit : (f g.first).effectiveUnit = g.first.1.effectiveUnit := by
    have hunit := congrArg Row.effectiveUnit hfirst
    exact hunit
  have hduration : (f g.first).effectiveDuration = g.first.1.effectiveDuration := by
    have hduration := congrArg Row.effectiveDuration hfirst
    exact hduration
  exact ⟨count_mapRows f g, hunit, hduration, length_mapRows hunit hduration, opening_mapRows hunit⟩

theorem BeatGroup.token_mapRows {f : PlacedRow → Row} {g : BeatGroup}
    (hf : ∀ p ∈ g.members, (f p).textless = p.1.textless) {p : PlacedRow} (hp : p ∈ g.members) :
    (g.mapRows f).token (f p, p.2) = g.token p := by
  obtain ⟨-, -, -, hlength, hopening⟩ := BeatGroup.mapRows_spec hf
  have hencode : ∀ length opening, (f p).encode length opening = p.1.encode length opening := by
    intro length opening
    have hencode := congrArg (fun r => Row.encode r length opening) (hf p hp)
    exact hencode
  unfold BeatGroup.token
  rw [hlength, hopening, hencode]
  rfl

theorem BeatGroup.fragment_mapRows {f : PlacedRow → Row} {g : BeatGroup}
    (hf : ∀ p ∈ g.members, (f p).textless = p.1.textless) :
    (g.mapRows f).fragment = g.fragment := by
  have hmembers : (g.mapRows f).members = g.members.map fun p => (f p, p.2) := rfl
  unfold BeatGroup.fragment
  rw [hmembers, List.map_map]
  congr 1
  exact List.map_congr_left fun p hp => BeatGroup.token_mapRows hf hp

/-- A row with the texts of its note. -/
def Table.encoded (t : Table) (p : PlacedRow) : Row :=
  match Table.beatOf? t.beats p.1 with
  | none => p.1
  | some g => g.encodeRow p

theorem withNotesText_eq (t : Table) : t.withNotesText = t.zipIdx.map t.encoded :=
  rfl

/-- What the note encoder changes of a row: its texts, and only of a row that takes time. -/
theorem encoded_spec (t : Table) (p : PlacedRow) :
    (t.encoded p).textless = p.1.textless
      ∧ (p.1.isRhythm = false → t.encoded p = p.1) := by
  unfold Table.encoded
  split
  · exact ⟨rfl, fun _ => rfl⟩
  · next g hg =>
    obtain ⟨key, hkey, -⟩ := Option.bind_eq_some_iff.1 hg
    have hrhythm := (beatKey?_eq_some.1 hkey).1
    exact ⟨rfl, fun hnone => absurd hrhythm (by simp [hnone])⟩

/-- A row of a beat gets the texts of that beat. -/
theorem encoded_of_mem {t : Table} {g : BeatGroup} (hg : g ∈ t.beats) {p : PlacedRow}
    (hp : p ∈ g.members) : t.encoded p = g.encodeRow p := by
  unfold Table.encoded
  rw [Table.beatOf?_of_mem hg hp]

theorem getElem?_withNotesText {t : Table} {g : BeatGroup} (hg : g ∈ t.beats) {p : PlacedRow}
    (hp : p ∈ g.members) : t.withNotesText[p.2]? = some (g.encodeRow p) := by
  have hrow : t[p.2]? = some p.1 := List.mk_mem_zipIdx_iff_getElem?.1 (Table.mem_beat hg hp).1
  rw [withNotesText_eq, List.getElem?_map, List.getElem?_zipIdx, hrow, Nat.zero_add]
  exact congrArg some (encoded_of_mem hg hp)

/-- The note encoder gives every beat its texts. -/
theorem noted_of_mem_beats {t : Table} {g : BeatGroup} (hg : g ∈ t.withNotesText.beats) :
    g.Noted := by
  have hkeys : ∀ p ∈ t.zipIdx, (t.encoded p).beatKey? = p.1.beatKey? := by
    intro p _
    have hkey := congrArg Row.beatKey? (encoded_spec t p).1
    exact hkey
  rw [withNotesText_eq, beats_zipIdx_map hkeys] at hg
  obtain ⟨g, hbeat, rfl⟩ := List.mem_map.1 hg
  have hsame : ∀ p ∈ g.members, (t.encoded p).textless = p.1.textless := fun p _ =>
    (encoded_spec t p).1
  refine ⟨fun q hq => ?_, ?_, fun q hq => ?_⟩
  · obtain ⟨p, hp, rfl⟩ := List.mem_map.1 (show q ∈ g.members.map fun p => (t.encoded p, p.2) from hq)
    rw [BeatGroup.token_mapRows hsame hp, encoded_of_mem hbeat hp]
    rfl
  · rw [BeatGroup.fragment_mapRows hsame]
    show (t.encoded g.first).draftText = _
    rw [encoded_of_mem hbeat List.mem_cons_self]
    exact congrArg some (if_pos rfl)
  · obtain ⟨p, hp, rfl⟩ := List.mem_map.1 (show q ∈ g.others.map fun p => (t.encoded p, p.2) from hq)
    show (t.encoded p).draftText = _
    rw [encoded_of_mem hbeat (List.mem_cons_of_mem _ hp)]
    have hlt := (List.pairwise_cons.1 (Table.pairwise_members hbeat)).1 p hp
    exact congrArg some (if_neg (Nat.ne_of_gt hlt))

theorem map_textless_withNotesText (t : Table) :
    t.withNotesText.map Row.textless = t.map Row.textless :=
  map_zipIdx_map fun p _ => (encoded_spec t p).1

theorem mem_withNotesText {t : Table} {r : Row} (h : r ∈ t.withNotesText)
    (hr : r.isRhythm = false) : r ∈ t := by
  obtain ⟨p, hp, rfl⟩ := List.mem_map.1 h
  obtain ⟨hsame, hkept⟩ := encoded_spec t p
  have hrhythm := congrArg Row.isRhythm hsame
  have hrow := hkept (hrhythm.symm.trans hr)
  have hmem := List.fst_mem_of_mem_zipIdx hp
  exact (congrArg (· ∈ t) hrow).mpr hmem

theorem fields_withNotesText (t : Table) : t.withNotesText.fields = t.fields := by
  refine fields_zipIdx_map (fun p _ => ?_) fun p _ hheader => ?_
  · have hsource := congrArg Row.source (encoded_spec t p).1
    have hraw := congrArg Row.raw (encoded_spec t p).1
    exact ⟨hsource, hraw⟩
  · have hrow := (encoded_spec t p).2 (by simp [Row.isRhythm, hheader])
    have hdraft := congrArg Row.draftText hrow
    exact hdraft

-- ============================================================ tables

/-- What is known of a table behind the notes, whose heading has the given unit and key. -/
structure Table.Scored (heading : Rat) (key : String) (t : Table) : Prop where
  laid : t.Laid
  tuned : t.Tuned
  starts : Linked Row.isRhythm
    (fun previous r => previous = none → r.isHold = true → r.hasPitch = false) none t
  units : Linked Row.isRhythm (Row.InUnit heading) none t
  led : Linked Row.isRhythm Row.Led none t
  barred : ∀ r ∈ t, Keys.isLyricBarline r = true → r.Barred
  unheard : ∀ r ∈ t, r.source = .lyric → r.isSpoken = false →
    r.directive = "" ∧ r.key = none ∧ r.draftText = none
  noted : ∀ g ∈ t.beats, g.Noted
  unitField : t.fields.lookup "L" = some (unitText heading)
  keyField : t.fields.lookup "K" = some key
  known : KnownKey key

theorem linked_of_sung {R : Option Row → Row → Prop}
    (hR : ∀ previous r, R (Option.map Row.sung previous) r.sung ↔ R previous r)
    {t t' : Table} (h : t'.map Row.sung = t.map Row.sung)
    (hlinked : Linked Row.isRhythm R none t) : Linked Row.isRhythm R none t' := by
  have hsame : ∀ t : Table, Linked Row.isRhythm R none (t.map Row.sung)
      ↔ Linked Row.isRhythm R none t := by
    intro t
    refine (@Linked.map_iff Row Row Row.isRhythm R Row.sung none t).trans ?_
    exact ⟨fun hl => hl.imp fun previous r _ _ => (hR previous r).1,
      fun hl => hl.imp fun previous r _ _ => (hR previous r).2⟩
  rw [← hsame, h, hsame]
  exact hlinked

theorem source_of_mem_headingRows {title : String} {r : Row} (h : r ∈ headingRows title) :
    r.source = .header ∧ r.isSpoken = false := by
  obtain ⟨f, -, rfl⟩ := List.mem_map.1 h
  exact ⟨rfl, rfl⟩

/-- The heading stands in front of all that is ordered. -/
theorem pairwise_withHeading {R : Row → Row → Prop} {t : Table} (title : String)
    (hR : ∀ r r' : Row, r.source = .header → r.isSpoken = false → R r r') (h : t.Pairwise R) :
    (t.withHeading title).Pairwise R := by
  have hfirst : ∀ r ∈ headingRows title, ∀ r', R r r' := fun r hr r' =>
    hR r r' (source_of_mem_headingRows hr).1 (source_of_mem_headingRows hr).2
  refine List.pairwise_append.2 ⟨?_, h, fun r hr r' _ => hfirst r hr r'⟩
  exact List.pairwise_of_forall_mem_list fun r hr r' _ => hfirst r hr r'

theorem Table.Laid.withHeading {t : Table} (h : t.Laid) (title : String) :
    (t.withHeading title).Laid := by
  refine ⟨pairwise_withHeading title (fun r r' hheader hsilent => ?_) h.ordered,
    List.forall_mem_append.2 ⟨fun r hr => ?_, h.placed⟩⟩
  · exact ⟨fun hsource => absurd hheader hsource, fun hspoken => by
      rw [hsilent] at hspoken
      cases hspoken⟩
  · obtain ⟨hheader, hsilent⟩ := source_of_mem_headingRows hr
    obtain ⟨hrhythm, hbar⟩ := Bool.or_eq_false_iff.1 hsilent
    exact ⟨fun h => by simp [hrhythm] at h, fun h => by simp [hbar] at h,
      fun h => by simp [hheader] at h⟩

theorem Table.Measured.withHeading {t : Table} (h : t.Measured) (title : String) :
    (t.withHeading title).Measured := by
  refine ⟨pairwise_withHeading title (fun r r' hheader hsilent => ?_) h.ordered,
    List.forall_mem_append.2 ⟨fun r hr hrhythm => ?_, h.measure⟩⟩
  · exact ⟨fun hsource => absurd hheader hsource, fun hspoken => by
      rw [hsilent] at hspoken
      cases hspoken⟩
  · rw [(Bool.or_eq_false_iff.1 (source_of_mem_headingRows hr).2).1] at hrhythm
    cases hrhythm

/-- No row of the heading takes time. -/
theorem linked_withHeading {R : Option Row → Row → Prop} {t : Table} (title : String)
    (h : Linked Row.isRhythm R none t) : Linked Row.isRhythm R none (t.withHeading title) := by
  rw [← Linked.filter_iff] at h ⊢
  unfold Table.withHeading
  rw [List.filter_append, show (headingRows title).filter Row.isRhythm = [] from rfl]
  exact h

/-- Behind the underlay the lines hold nothing but their tones. -/
theorem bare_of_untoned {s : Score} {t : Table} (h : t.map Row.untoned = s.layout.map Row.untoned) :
    ∀ r ∈ t, r.source ≠ .header ∧ r.directive = "" ∧ r.key = none ∧ r.draftText = none := by
  intro r hr
  have hmem : r.untoned ∈ s.layout.map Row.untoned := h ▸ List.mem_map_of_mem hr
  obtain ⟨q, hq, heq⟩ := List.mem_map.1 hmem
  have hkeeps : ∀ {β : Type} (g : Row → β), g q.untoned = g r.untoned := fun g => congrArg g heq
  have hsource : q.source = r.source := hkeeps Row.source
  have hdirective : q.directive = r.directive := hkeeps Row.directive
  have hkey : q.key = r.key := hkeeps Row.key
  have hdraft : q.draftText = r.draftText := hkeeps Row.draftText
  have hbare := bare_of_mem_layout hq
  exact ⟨hsource ▸ hbare.source, hdirective ▸ hbare.directive, hkey ▸ hbare.key,
    hdraft ▸ hbare.draftText⟩

/-- The stages from the lines with their tones to the notes. -/
def Table.engraved (lines : Table) (title : String) (ds : List Declaration) : Table :=
  ((lines.withHeading title).withUnitsOf ds).withMetersText.withKeys.withNotesText

theorem map_unmarked_engraved (lines : Table) (title : String) (ds : List Declaration) :
    (lines.engraved title ds).map Row.unmarked = (lines.withHeading title).map Row.unmarked := by
  unfold Table.engraved
  rw [map_unmarked_withNotesText, map_unmarked_withKeys, map_unmarked_withMetersText,
    map_unmarked_withUnitsOf]

/-- Before the keys come, only the meters have written on the lyric rows. -/
theorem keyless_of_bare {lines : Table}
    (hbare : ∀ r ∈ lines, r.source ≠ .header ∧ r.directive = "" ∧ r.key = none ∧ r.draftText = none)
    (title : String) (ds : List Declaration) :
    (∀ r ∈ (lines.withHeading title).withUnitsOf ds, r.isRhythm = true → r.directive = "")
      ∧ ((lines.withHeading title).withUnitsOf ds).withMetersText.Keyless := by
  have hunits : ∀ r ∈ (lines.withHeading title).withUnitsOf ds, r.source = .lyric →
      r.directive = "" ∧ r.key = none ∧ r.draftText = none := by
    intro r hr hsource
    obtain ⟨q, hq, unit, declared, rfl⟩ := mem_withUnitsOf hr (by rw [hsource]; decide)
    rcases List.mem_append.1 hq with hq | hq
    · obtain ⟨f, -, rfl⟩ := List.mem_map.1 hq
      cases hsource
    · exact (hbare q hq).2
  have hmeters : ∀ r ∈ ((lines.withHeading title).withUnitsOf ds).withMetersText,
      r.source = .lyric → r.key = none ∧ r.draftText = none
        ∧ (r.isRhythm = false → r.directive = "") := by
    intro r hr hsource
    obtain ⟨q, hq, meter, directive, rfl, hkept⟩ :=
      mem_withMetersText hr (by rw [hsource]; decide)
    obtain ⟨hdirective, hkey, hdraft⟩ := hunits q hq hsource
    exact ⟨hkey, hdraft, fun hrhythm => (hkept hrhythm).trans hdirective⟩
  refine ⟨fun r hr hrhythm => (hunits r hr ?_).1, fun r hr hsource => (hmeters r hr hsource).1,
    fun r hr hsource => (hmeters r hr hsource).2.2, fun r hr hsource => (hmeters r hr hsource).2.1⟩
  simp only [Row.isRhythm, Bool.and_eq_true, beq_iff_eq] at hrhythm
  exact hrhythm.1

/-- A table behind the meters: its rows announce their units and meters, and no keys yet. -/
structure Table.Prepared (heading : Rat) (meter : String) (t : Table) : Prop where
  measured : t.Measured
  keyless : t.Keyless
  drafted : t.Drafted
  units : Linked Row.isRhythm (Row.InUnit heading) none t
  metered : Linked Row.isRhythm Row.Metered none t
  first : Linked Row.isRhythm (fun previous r => previous = none → r.meter = some meter) none t
  unitField : t.fields.lookup "L" = some (unitText heading)
  meterField : t.fields.lookup "M" = some meter
  keyField : (t.fields.lookup "K").isSome = true

/-- The stages up to the meters keep the outline of the lines. -/
theorem map_outline_prepared (lines : Table) (title : String) (ds : List Declaration) :
    ((lines.withHeading title).withUnitsOf ds).withMetersText.map Row.outline
      = (lines.withHeading title).map Row.outline := by
  apply map_outline_of_sung
  apply map_sung_of_unmarked
  rw [map_unmarked_withMetersText, map_unmarked_withUnitsOf]

/-- What the stages up to the meters make of lines in the order of their measures. -/
theorem Table.Measured.prepared {lines : Table} (h : lines.Measured)
    (hbare : ∀ r ∈ lines, r.source ≠ .header ∧ r.directive = "" ∧ r.key = none ∧ r.draftText = none)
    {title : String} {ds : List Declaration}
    (hds : (lines.withHeading title).declarations = .ok ds) :
    ∃ heading meter,
      ((lines.withHeading title).withUnitsOf ds).withMetersText.Prepared heading meter := by
  have hheaded := h.withHeading title
  have hunits := withUnitsOf_linked hheaded hds
  have hmeasured := hheaded.of_outline
    (map_outline_of_sung (map_sung_of_unmarked (map_unmarked_withUnitsOf _ ds)))
  obtain ⟨hplain, hkeyless⟩ := keyless_of_bare hbare title ds
  have hfields := fields_withMetersText ((lines.withHeading title).withUnitsOf ds)
  rw [fields_withUnitsOf, fields_withHeading title fun r hr => (hbare r hr).1] at hfields
  refine ⟨_, _, {
    measured := hheaded.of_outline (map_outline_prepared lines title ds)
    keyless := hkeyless
    drafted := ?_
    units := withMetersText_inUnit hunits
    metered := withMetersText_linked hmeasured hunits hplain
    first := withMetersText_first hmeasured
    unitField := by rw [hfields]; rfl
    meterField := by rw [hfields]; rfl
    keyField := by rw [hfields]; rfl }⟩
  have hlines : (lines.withHeading title).Drafted := by
    refine List.forall_mem_append.2 ⟨fun r hr _ => ?_, fun r hr h => absurd h (hbare r hr).1⟩
    obtain ⟨f, -, rfl⟩ := List.mem_map.1 hr
    rfl
  apply hlines.of_unmarked
  rw [map_unmarked_withMetersText, map_unmarked_withUnitsOf]

/-- The keys set the key of the heading and no other field. -/
theorem Table.Prepared.lookup_withKeys {heading : Rat} {meter : String} {t : Table}
    (h : t.Prepared heading meter) :
    t.withKeys.fields.lookup "L" = some (unitText heading)
      ∧ t.withKeys.fields.lookup "M" = some meter
      ∧ t.withKeys.fields.lookup "K" = some (Keys.headingKey t.keyMarks) := by
  obtain ⟨key, hkey⟩ := Option.isSome_iff_exists.1 h.keyField
  simp only [fields_withKeys, lookup_set, h.unitField, h.meterField, hkey]
  exact ⟨rfl, rfl, rfl⟩

/-- What the stages make of lines that are laid out and have their tones. -/
theorem Table.Laid.scored {lines : Table} (hlaid : lines.Laid) (htuned : lines.Tuned)
    (hstarts : Linked Row.isRhythm
      (fun previous r => previous = none → r.isHold = true → r.hasPitch = false) none lines)
    (hbare : ∀ r ∈ lines, r.source ≠ .header ∧ r.directive = "" ∧ r.key = none ∧ r.draftText = none)
    {title : String} {ds : List Declaration}
    (hds : (lines.withHeading title).declarations = .ok ds) :
    ∃ heading key, (lines.engraved title ds).Scored heading key := by
  have hheaded := hlaid.withHeading title
  obtain ⟨heading, meter, hprepared⟩ := hlaid.measured.prepared hbare hds
  have hsung := map_sung_of_unmarked (map_unmarked_engraved lines title ds)
  obtain ⟨hunitField, -, hkeyField⟩ := hprepared.lookup_withKeys
  have hfields : (lines.engraved title ds).fields
      = ((lines.withHeading title).withUnitsOf ds).withMetersText.withKeys.fields :=
    fields_withNotesText _
  have hnotes := map_textless_withNotesText
    ((lines.withHeading title).withUnitsOf ds).withMetersText.withKeys
  have hbar : ∀ {r : Row}, Keys.isLyricBarline r = true → r.isRhythm = false := fun hbar =>
    Bool.eq_false_iff.2 fun hrhythm => by
      rw [isLyricBarline_of_isRhythm hrhythm] at hbar
      cases hbar
  refine ⟨_, _, {
    laid := hheaded.of_outline (map_outline_of_sung hsung)
    tuned := ?_
    starts := linked_of_sung (fun previous r => ?_) hsung ?_
    units := linked_of_textless inUnit_textless hnotes (withKeys_inUnit hprepared.units)
    led := linked_of_textless led_textless hnotes
      (withKeys_linked hprepared.measured hprepared.metered hprepared.keyless)
    barred := fun r hr hr' =>
      withKeys_barred hprepared.keyless (mem_withNotesText hr (hbar hr')) hr'
    unheard := fun r hr hsource hspoken => withKeys_unheard hprepared.keyless
      (mem_withNotesText hr (Bool.or_eq_false_iff.1 hspoken).1) hsource hspoken
    noted := fun g hg => noted_of_mem_beats hg
    unitField := by rw [hfields]; exact hunitField
    keyField := by rw [hfields]; exact hkeyField
    known := knownKey_headingKey _ }⟩
  · refine Table.Tuned.of_sung (List.forall_mem_append.2 ⟨fun r hr hsource => ?_, htuned⟩) hsung
    obtain ⟨f, -, rfl⟩ := List.mem_map.1 hr
    cases hsource
  · rw [Option.map_eq_none_iff]
    exact Iff.rfl
  · exact linked_withHeading title hstarts

/-- What the stages make of a score with no beat shorter than one. -/
theorem Score.scored {s : Score}
    (hs : ∀ b ∈ s.blocks, ∀ beat, LyricItem.beat beat ∈ b.lyrics → 1 ≤ beat.duration)
    {v : Table} (hv : s.layout.voiced = .ok v) {title : String} {ds : List Declaration}
    (hds : Table.declarations (Table.withHeading title (v.underlaid.map (·.1))) = .ok ds) :
    ∃ heading key, (Table.engraved (v.underlaid.map (·.1)) title ds).Scored heading key := by
  obtain ⟨huntoned, htuned, hstarts⟩ := underlaid_spec hv
  have houtline : (v.underlaid.map (·.1)).map Row.outline = s.layout.map Row.outline := by
    have hsame : Row.outline = Row.outline ∘ Row.untoned := rfl
    rw [hsame, ← List.map_map, huntoned, List.map_map]
  exact ((Score.layout_laid hs).of_outline houtline).scored htuned hstarts
    (bare_of_untoned huntoned) hds

end LyricScore
