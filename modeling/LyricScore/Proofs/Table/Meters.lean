/-
Meters announced. The measures of a table are the stretches of its rows that take time, so one
measure follows the other, and each announces what is new against the one before. Seen from the
rows: the directive of a row reads as the changes of unit and meter against the row before it that
takes time. Inside a measure there are none.
-/
import LyricScore.Proofs.Table.Units
import LyricScore.Proofs.Tune.Script

namespace LyricScore

open Text

-- ============================================================= texts

theorem not_mem_decimal (n : Int) {c : Char} (hdigit : c.isDigit = false) (hsign : c ≠ '-') :
    c ∉ (decimal n).toList := by
  intro h
  rcases mem_decimal h with h | h
  · rw [hdigit] at h
    cases h
  · exact hsign h

theorem not_mem_unitText (unit : Rat) : ']' ∉ (unitText unit).toList := by
  unfold unitText
  rw [String.toList_append, String.toList_append]
  intro h
  rcases List.mem_append.1 h with h | h
  · rcases List.mem_append.1 h with h | h
    · exact not_mem_decimal _ (by decide) (by decide) h
    · exact absurd h (by decide)
  · exact not_mem_decimal _ (by decide) (by decide) h

theorem toList_meterText (beats denominator : Int) :
    ∃ digit ∈ ['4', '8'],
      (meterText beats denominator).toList = (decimal beats).toList ++ ['/', digit] := by
  unfold meterText
  rw [String.toList_append]
  split
  · exact ⟨'8', by simp, rfl⟩
  · exact ⟨'4', by simp, rfl⟩

theorem not_mem_meterText (beats denominator : Int) :
    ']' ∉ (meterText beats denominator).toList := by
  obtain ⟨digit, hdigit, htext⟩ := toList_meterText beats denominator
  rw [htext]
  intro h
  rcases List.mem_append.1 h with h | h
  · exact not_mem_decimal _ (by decide) (by decide) h
  · simp only [List.mem_cons, List.not_mem_nil, or_false] at h hdigit
    rcases h with h | rfl
    · exact absurd h (by decide)
    · exact absurd hdigit (by decide)

theorem meterText_ne_empty (beats denominator : Int) : meterText beats denominator ≠ "" := by
  obtain ⟨digit, -, htext⟩ := toList_meterText beats denominator
  intro h
  rw [h] at htext
  simp at htext

/-- The note value of every meter that is announced can be read. -/
theorem meterValue_meterText (beats denominator : Int) :
    ∃ value, meterValue (meterText beats denominator) = .ok value := by
  obtain ⟨digit, hdigit, htext⟩ := toList_meterText beats denominator
  have hdenominator : meterDenominator (meterText beats denominator) = String.ofList [digit] := by
    obtain ⟨-, hdrop⟩ := takeWhile_dropWhile_append (p := (· != '/')) (l := (decimal beats).toList)
      (r := ['/', digit])
      (fun c hc => by
        simpa using fun heq : c = '/' => not_mem_decimal beats (by decide) (by decide) (heq ▸ hc))
      (by rintro c ⟨⟩; decide)
    unfold meterDenominator
    rw [htext, hdrop]
    rfl
  unfold meterValue
  rw [hdenominator]
  simp only [List.mem_cons, List.not_mem_nil, or_false] at hdigit
  rcases hdigit with rfl | rfl
  · exact ⟨4, rfl⟩
  · exact ⟨8, rfl⟩

-- ========================================================== measures

/-- The rows that take time, with their places. -/
def Table.timed (t : Table) : List PlacedRow :=
  t.zipIdx.filter fun p => p.1.isRhythm

/-- The measure that a stretch makes. -/
def Stretch.measure? : Stretch MeasureKey PlacedRow → Option Measure
  | .group key first others => Measure.ofMembers? key (first :: others)
  | .single _ => none

theorem timed_eq (t : Table) : t.timed = t.spoken.filter fun p => p.1.isRhythm := by
  unfold Table.timed Table.spoken
  rw [List.filter_filter]
  refine List.filter_congr fun p _ => ?_
  cases hp : p.1.isRhythm with
  | false => rfl
  | true => rw [isSpoken_of_isRhythm hp]; rfl

theorem timed_sublist_spoken (t : Table) : t.timed.Sublist t.spoken := by
  rw [timed_eq]
  exact List.filter_sublist

theorem Table.Measured.gathered_timed {t : Table} (h : t.Measured) :
    Gathered (fun p : PlacedRow => p.1.measureKey?) t.timed := fun a b c k hsub =>
  h.gathered_measures a b c k (hsub.trans (timed_sublist_spoken t))

theorem Table.Measured.measures_eq {t : Table} (h : t.Measured) :
    t.measures
      = (stretches (fun p : PlacedRow => p.1.measureKey?) t.timed).filterMap Stretch.measure? := by
  have htimed : ∀ (p : PlacedRow) (k : MeasureKey), p.1.measureKey? = some k → p.1.isRhythm = true :=
    fun p k hk => (measureKey?_eq_some.1 hk).1
  unfold Table.measures
  rw [← classes_filter htimed, ← Table.timed, classes_eq_gatheredClasses h.gathered_timed,
    gatheredClasses, List.filterMap_filterMap]
  congr 1
  funext s
  cases s <;> rfl

/-- What the account of a measure says about its rows. -/
structure Measure.Counted (m : Measure) : Prop where
  rows : ∀ p ∈ m.members, p.1.isRhythm = true ∧ p.1.measureKey? = some m.key
  places : m.members.Pairwise fun p q => p.2 < q.2
  unit : m.unit = m.first.1.effectiveUnit
  meter : ∃ beats denominator, m.meter = meterText beats denominator

theorem Table.Measured.counted {t : Table} (h : t.Measured) {m : Measure} (hm : m ∈ t.measures) :
    m.Counted := by
  rw [h.measures_eq] at hm
  obtain ⟨s, hs, hmeasure⟩ := List.mem_filterMap.1 hm
  cases s with
  | single p => cases hmeasure
  | group key first others =>
      obtain rfl := Option.some.inj hmeasure
      have hkey := hasKey_of_mem_stretches _ hs
      refine ⟨fun p hp => ?_, ?_, rfl, _, _, rfl⟩
      · exact ⟨(measureKey?_eq_some.1 (hkey p hp)).1, hkey p hp⟩
      · refine (t.pairwise_place_spoken.sublist (timed_sublist_spoken t)).sublist ?_
        rw [← members_stretches (fun p : PlacedRow => p.1.measureKey?) t.timed, List.flatMap_def]
        exact List.sublist_flatten_of_mem (List.mem_map.2 ⟨_, hs, rfl⟩)

/-- The measures hold all rows that take time, one measure behind the other. -/
theorem Table.Measured.flatMap_measures {t : Table} (h : t.Measured) :
    t.measures.flatMap Measure.members = t.timed := by
  have hkeyed : ∀ ss : List (Stretch MeasureKey PlacedRow),
      (∀ s ∈ ss, s.HasKey fun p : PlacedRow => p.1.measureKey?) →
      (∀ p ∈ ss.flatMap Stretch.members, ∃ k, p.1.measureKey? = some k) →
      (ss.filterMap Stretch.measure?).flatMap Measure.members = ss.flatMap Stretch.members := by
    intro ss hss hall
    induction ss with
    | nil => rfl
    | cons s ss ih =>
        obtain ⟨hs, hmoreKeys⟩ := List.forall_mem_cons.1 hss
        rw [List.flatMap_cons] at hall ⊢
        obtain ⟨hown, hmore⟩ := List.forall_mem_append.1 hall
        cases s with
        | single p =>
            obtain ⟨k, hk⟩ := hown p List.mem_cons_self
            rw [show p.1.measureKey? = none from hs] at hk
            cases hk
        | group key first others =>
            rw [← ih hmoreKeys hmore]
            rfl
  have hall := hkeyed (stretches (fun p : PlacedRow => p.1.measureKey?) t.timed)
    hasKey_of_mem_stretches
  rw [members_stretches] at hall
  rw [h.measures_eq]
  refine hall fun p hp => ?_
  obtain ⟨hz, hrhythm⟩ := List.mem_filter.1 hp
  obtain ⟨measure, hm⟩ := h.measure p.1 (List.fst_mem_of_mem_zipIdx hz) hrhythm
  exact ⟨⟨p.1.block, measure⟩, measureKey?_eq_some.2 ⟨hrhythm, rfl, hm⟩⟩

theorem Table.Measured.nodup_measures {t : Table} (h : t.Measured) : (t.measures.map (·.key)).Nodup := by
  have hclasses : t.measures.map (·.key)
      = (gatheredClasses (fun p : PlacedRow => p.1.measureKey?) t.timed).map (·.1) := by
    rw [h.measures_eq, gatheredClasses, List.map_filterMap, List.map_filterMap]
    congr 1
    funext s
    cases s <;> rfl
  rw [hclasses]
  exact nodup_gatheredClasses h.gathered_timed

theorem map_fst_timed (t : Table) : t.timed.map (·.1) = t.filter (·.isRhythm) := by
  have hfilter : (t.zipIdx.map Prod.fst).filter Row.isRhythm
      = (t.zipIdx.filter (Row.isRhythm ∘ Prod.fst)).map Prod.fst := List.filter_map
  rw [List.zipIdx_map_fst] at hfilter
  exact hfilter.symm

/-- Of the rows that are linked only those that are heard matter. -/
theorem linked_spoken_iff {R : Option Row → Row → Prop} {t : Table} :
    Linked Row.isRhythm R none (t.spoken.map (·.1)) ↔ Linked Row.isRhythm R none t := by
  have hrows : (t.spoken.map (·.1)).filter Row.isRhythm = t.filter Row.isRhythm := by
    rw [List.filter_map, ← map_fst_timed, timed_eq]
    rfl
  rw [← Linked.filter_iff, hrows, Linked.filter_iff]

/-- Rows of one measure have one unit. -/
theorem Linked.inUnit_constant {heading : Rat} {previous : Option Row} {r : Row} {rows : List Row}
    {k : MeasureKey} (hrows : ∀ q ∈ r :: rows, q.isRhythm = true ∧ q.measureKey? = some k)
    (h : Linked Row.isRhythm (Row.InUnit heading) previous (r :: rows)) : ∀ q ∈ rows, q.unit = r.unit := by
  induction rows generalizing previous r with
  | nil => exact fun q hq => absurd hq List.not_mem_nil
  | cons r' rows ih =>
      obtain ⟨⟨hrhythm, hkey⟩, hrows⟩ := List.forall_mem_cons.1 hrows
      rw [Linked.cons_of_pos hrhythm] at h
      have hrest := ih hrows h.2
      have hunit : r'.unit = r.unit := by
        obtain ⟨hrhythm', hkey'⟩ := hrows r' List.mem_cons_self
        have hnext := h.2
        rw [Linked.cons_of_pos hrhythm'] at hnext
        obtain ⟨unit, hunit, -, -, hsame⟩ := hnext.1
        rw [hunit, hsame r rfl (hkey.trans hkey'.symm)]
      exact List.forall_mem_cons.2 ⟨hunit, fun q hq => (hrest q hq).trans hunit⟩

/-- The unit of a measure is that of all its rows. -/
theorem Table.Measured.unit_of_mem {t : Table} (h : t.Measured) {heading : Rat}
    (hunits : Linked Row.isRhythm (Row.InUnit heading) none t) {m : Measure} (hm : m ∈ t.measures) :
    ∀ p ∈ m.members, p.1.effectiveUnit = m.unit := by
  have hcounted := h.counted hm
  obtain ⟨before, after, hsplit⟩ := List.append_of_mem hm
  have hrows : t.filter (·.isRhythm)
      = (before.flatMap Measure.members).map (·.1) ++ m.members.map (·.1)
        ++ (after.flatMap Measure.members).map (·.1) := by
    rw [← map_fst_timed, ← h.flatMap_measures, hsplit, List.flatMap_append, List.flatMap_cons,
      List.map_append, List.map_append, List.append_assoc]
  rw [← Linked.filter_iff, hrows] at hunits
  obtain ⟨previous, hpart⟩ := hunits.part
  have hsame := hpart.inUnit_constant (k := m.key) fun q hq => by
    obtain ⟨p, hp, rfl⟩ := List.mem_map.1 (show q ∈ m.members.map (·.1) from hq)
    exact hcounted.rows p hp
  refine List.forall_mem_cons.2 ⟨hcounted.unit.symm, fun p hp => ?_⟩
  rw [hcounted.unit]
  unfold Row.effectiveUnit
  rw [hsame p.1 (List.mem_map_of_mem hp)]

-- ===================================================== announcements

/-- The fields that tell a row's unit and meter from those of the row before it. -/
def Row.changes (previous : Option Row) (r : Row) : List Token :=
  match previous with
  | none => []
  | some q =>
    (if r.effectiveUnit = q.effectiveUnit then [] else [.field 'L' (unitText r.effectiveUnit).toList])
      ++ (if r.effectiveMeter = q.effectiveMeter then [] else [.field 'M' r.effectiveMeter.toList])

/-- A row whose directive announces its unit and meter. Inside a measure nothing changes. -/
structure Row.Metered (previous : Option Row) (r : Row) : Prop where
  directive : Reads r.directive (r.changes previous)
  meter : ∃ beats denominator, r.meter = some (meterText beats denominator)
  within : ∀ q ∈ previous, q.measureKey? = r.measureKey? → r.changes previous = []

theorem effectiveMeter_of_meterText {r : Row} {beats denominator : Int}
    (h : r.meter = some (meterText beats denominator)) :
    r.effectiveMeter = meterText beats denominator := by
  unfold Row.effectiveMeter
  rw [h]
  exact if_neg (meterText_ne_empty beats denominator)

theorem reads_unitField (unit : Rat) :
    Reads ("[L:" ++ unitText unit ++ "]") [.field 'L' (unitText unit).toList] := by
  refine Reads.field 'L' (not_mem_unitText unit) ?_
  rw [String.toList_append, String.toList_append]
  rfl

theorem reads_meterField {meter : String} (h : ']' ∉ meter.toList) :
    Reads ("[M:" ++ meter ++ "]") [.field 'M' meter.toList] := by
  refine Reads.field 'M' h ?_
  rw [String.toList_append, String.toList_append]
  rfl

/-- What a measure announces reads as its changes. -/
theorem reads_changes {previous m : Measure} (hmeter : ']' ∉ m.meter.toList) :
    (∀ text ∈ Measure.changes previous m, text ≠ "")
      ∧ Reads (" ".intercalate (Measure.changes previous m))
          ((if m.unit = previous.unit then [] else [.field 'L' (unitText m.unit).toList])
            ++ (if m.meter = previous.meter then [] else [.field 'M' m.meter.toList])) := by
  unfold Measure.changes
  split
  all_goals split
  · exact ⟨nofun, Reads.empty⟩
  · refine ⟨?_, ?_⟩
    · simp
    · simpa using reads_meterField hmeter
  · refine ⟨?_, ?_⟩
    · simp
    · simpa using reads_unitField m.unit
  · refine ⟨?_, ?_⟩
    · simp
    · have hread := (reads_unitField m.unit).beside (reads_meterField hmeter)
      simpa using hread

/-- What a row of a measure has in common with the others. -/
structure Measure.Has (m : Measure) (r : Row) : Prop where
  rhythm : r.isRhythm = true
  key : r.measureKey? = some m.key
  unit : r.effectiveUnit = m.unit
  meter : r.meter = some m.meter
  effectiveMeter : r.effectiveMeter = m.meter

theorem Measure.mark_of_ne (m : Measure × List String) (r : Row) {index : Nat}
    (h : index ≠ m.1.first.2) : Measure.mark m r index = { r with meter := some m.1.meter } := by
  simp only [Measure.mark]
  exact if_neg fun hfirst => h hfirst.1

/-- The row that opens a measure gets all that the measure announces. -/
theorem Measure.mark_first (m : Measure × List String) {r : Row} (hr : r.directive = "")
    (hm : ∀ text ∈ m.2, text ≠ "") :
    Measure.mark m r m.1.first.2
      = { r with meter := some m.1.meter, directive := " ".intercalate m.2 } := by
  simp only [Measure.mark, hr]
  split
  · have hfilter : ("" :: m.2).filter (· != "") = m.2 := by
      rw [List.filter_cons_of_neg (by decide)]
      exact List.filter_eq_self.2 fun text htext => by simpa using hm text htext
    rw [hfilter]
  · next hnone =>
    have hempty : m.2 = [] := Decidable.not_not.1 fun hne => hnone ⟨trivial, hne⟩
    rw [hempty, String.intercalate_nil, ← hr]

/-- Inside a measure nothing is announced. -/
theorem linked_within {m : Measure} {beats denominator : Int}
    (hmeter : m.meter = meterText beats denominator) {rows : List Row} {q : Row} (hq : m.Has q)
    (hrows : ∀ r ∈ rows, m.Has r ∧ r.directive = "") : Linked Row.isRhythm Row.Metered (some q) rows := by
  induction rows generalizing q with
  | nil => exact Linked.nil
  | cons r rows ih =>
      obtain ⟨⟨hr, hdirective⟩, hrows⟩ := List.forall_mem_cons.1 hrows
      rw [Linked.cons_of_pos hr.rhythm]
      have hnone : r.changes (some q) = [] := by
        simp only [Row.changes]
        rw [if_pos (hr.unit.trans hq.unit.symm),
          if_pos (hr.effectiveMeter.trans hq.effectiveMeter.symm)]
        rfl
      refine ⟨⟨?_, ⟨beats, denominator, hmeter ▸ hr.meter⟩, fun _ _ _ => hnone⟩, ih hr hrows⟩
      rw [hdirective, hnone]
      exact Reads.empty

/-- A row of a measure, once it is marked, has what all rows of the measure have in common. -/
theorem Measure.has_mark {m : Measure} (hcounted : m.Counted) (changes : List String) {p : PlacedRow}
    (hp : p ∈ m.members) (hunit : p.1.effectiveUnit = m.unit) :
    m.Has (Measure.mark (m, changes) p.1 p.2) := by
  obtain ⟨beats, denominator, hmeter⟩ := hcounted.meter
  obtain ⟨hrhythm, hkey⟩ := hcounted.rows p hp
  have heffective : ∀ {r : Row}, r.meter = some m.meter → r.effectiveMeter = m.meter :=
    fun h => (effectiveMeter_of_meterText (hmeter ▸ h)).trans hmeter.symm
  simp only [Measure.mark]
  split <;> exact ⟨hrhythm, hkey, hunit, rfl, heffective rfl⟩

/-- A measure announces its changes on its first row, and nothing on the others. -/
theorem linked_measure {m : Measure} {pm : Option Measure} {previous : Option Row}
    (hcounted : m.Counted)
    (hown : ∀ p ∈ m.members, p.1.effectiveUnit = m.unit ∧ p.1.directive = "")
    (hnew : ∀ m' ∈ pm, m'.key ≠ m.key)
    (hprevious : pm = none ∧ previous = none
      ∨ ∃ m q, pm = some m ∧ previous = some q ∧ m.Has q)
    {changes : List String} (hchanges : changes = (pm.map (Measure.changes · m)).getD []) :
    Linked Row.isRhythm Row.Metered previous
      (m.members.map fun p => Measure.mark (m, changes) p.1 p.2) := by
  obtain ⟨beats, denominator, hmeter⟩ := hcounted.meter
  have hclosed : ']' ∉ m.meter.toList := hmeter ▸ not_mem_meterText beats denominator
  have htexts : ∀ text ∈ changes, text ≠ "" := by
    rw [hchanges]
    cases pm with
    | none => exact nofun
    | some pm => exact (reads_changes hclosed).1
  obtain ⟨hunit, hplain⟩ := hown m.first List.mem_cons_self
  have hfirst := Measure.has_mark hcounted changes List.mem_cons_self hunit
  have hdirective : (Measure.mark (m, changes) m.first.1 m.first.2).directive
      = " ".intercalate changes := by
    rw [Measure.mark_first (m, changes) hplain htexts]
  show Linked Row.isRhythm Row.Metered previous
    (Measure.mark (m, changes) m.first.1 m.first.2 :: m.others.map _)
  rw [Linked.cons_of_pos hfirst.rhythm]
  refine ⟨⟨?_, ⟨beats, denominator, hmeter ▸ hfirst.meter⟩, ?_⟩,
    linked_within hmeter hfirst fun r hr => ?_⟩
  · rw [hdirective]
    rcases hprevious with ⟨rfl, rfl⟩ | ⟨pm, q, rfl, rfl, hq⟩
    · rw [hchanges]
      exact Reads.empty
    · simp only [Row.changes, hfirst.unit, hfirst.effectiveMeter, hq.unit, hq.effectiveMeter]
      rw [hchanges]
      exact (reads_changes hclosed).2
  · intro q hq hkey
    rcases hprevious with ⟨rfl, rfl⟩ | ⟨pm, q', rfl, rfl, hq'⟩
    · cases hq
    · -- another measure has another key
      obtain rfl := Option.some.inj hq
      rw [hq'.key, hfirst.key] at hkey
      exact absurd (Option.some.inj hkey) (hnew pm rfl)
  · obtain ⟨p, hp, rfl⟩ := List.mem_map.1 hr
    have hmem : p ∈ m.members := List.mem_cons_of_mem _ hp
    refine ⟨Measure.has_mark hcounted changes hmem (hown p hmem).1, ?_⟩
    rw [Measure.mark_of_ne (m, changes) p.1
      (Nat.ne_of_gt ((List.pairwise_cons.1 hcounted.places).1 p hp))]
    exact (hown p hmem).2

/-- Measures one behind the other announce their changes. -/
theorem linked_measures {F : PlacedRow → Row} {ms : List Measure} {pm : Option Measure}
    {previous : Option Row}
    (hF : ∀ mc ∈ Measure.withChanges pm ms, ∀ p ∈ mc.1.members,
      F p = Measure.mark mc p.1 p.2)
    (hms : ∀ m ∈ ms, m.Counted ∧ ∀ p ∈ m.members, p.1.effectiveUnit = m.unit ∧ p.1.directive = "")
    (hkeys : ((pm.toList ++ ms).map (·.key)).Nodup)
    (hprevious : pm = none ∧ previous = none
      ∨ ∃ m q, pm = some m ∧ previous = some q ∧ m.Has q) :
    Linked Row.isRhythm Row.Metered previous ((ms.flatMap Measure.members).map F) := by
  induction ms generalizing pm previous with
  | nil => exact Linked.nil
  | cons m ms ih =>
      obtain ⟨⟨hcounted, hown⟩, hmore⟩ := List.forall_mem_cons.1 hms
      have hcons : Measure.withChanges pm (m :: ms)
          = (m, (pm.map (Measure.changes · m)).getD []) :: Measure.withChanges (some m) ms := by
        cases pm <;> rfl
      rw [hcons] at hF
      obtain ⟨hFm, hFmore⟩ := List.forall_mem_cons.1 hF
      have hnew : ∀ m' ∈ pm, m'.key ≠ m.key := by
        rintro m' rfl heq
        exact (List.nodup_cons.1 hkeys).1 (List.mem_cons.2 (Or.inl heq))
      have hmarked := List.map_congr_left hFm
      rw [List.flatMap_cons, List.map_append, hmarked]
      refine (linked_measure hcounted hown hnew hprevious rfl).append (P := m.Has)
        (by simp [Measure.members]) (fun r hr => ?_) fun q hq => ?_
      · obtain ⟨p, hp, rfl⟩ := List.mem_map.1 hr
        have hhas := Measure.has_mark hcounted ((pm.map (Measure.changes · m)).getD []) hp (hown p hp).1
        exact ⟨hhas.rhythm, hhas⟩
      · refine ih hFmore hmore (hkeys.sublist ?_) (Or.inr ⟨m, q, rfl, rfl, hq⟩)
        exact (List.sublist_append_right pm.toList (m :: ms)).map _

theorem map_fst_withChanges (pm : Option Measure) (ms : List Measure) :
    (Measure.withChanges pm ms).map (·.1) = ms := by
  induction ms generalizing pm with
  | nil => rfl
  | cons m ms ih => cases pm <;> exact congrArg (m :: ·) (ih (some m))

/-- A row with the meter of its measure and what is announced on it. -/
def Table.metered (t : Table) (p : PlacedRow) : Row :=
  match p.1.measureKey?.bind fun key => t.announced.find? fun m => decide (m.1.key = key) with
  | none => p.1
  | some m => Measure.mark m p.1 p.2

theorem withMetersText_eq (t : Table) :
    t.withMetersText = Table.setField "M" t.headingMeter (t.zipIdx.map t.metered) :=
  rfl

theorem mark_spec (m : Measure × List String) (r : Row) (index : Nat) :
    ∃ directive, Measure.mark m r index
      = { r with meter := some m.1.meter, directive := directive } := by
  simp only [Measure.mark]
  split <;> exact ⟨_, rfl⟩

/-- What the meters change of a row: its meter and its directive, and only of a row that takes
time. -/
theorem metered_spec (t : Table) (p : PlacedRow) :
    ∃ meter directive, t.metered p = { p.1 with meter := meter, directive := directive }
      ∧ (p.1.isRhythm = false → meter = p.1.meter ∧ directive = p.1.directive) := by
  unfold Table.metered
  split
  · exact ⟨p.1.meter, p.1.directive, rfl, fun _ => ⟨rfl, rfl⟩⟩
  · next m hm =>
    obtain ⟨key, hkey, -⟩ := Option.bind_eq_some_iff.1 hm
    have hrhythm := (measureKey?_eq_some.1 hkey).1
    obtain ⟨directive, hmark⟩ := mark_spec m p.1 p.2
    exact ⟨some m.1.meter, directive, hmark, fun hnone => absurd hrhythm (by simp [hnone])⟩

theorem map_fst_announced (t : Table) : t.announced.map (·.1) = t.measures :=
  map_fst_withChanges none t.measures

/-- A row of a measure finds its own measure. -/
theorem Table.Measured.metered_eq {t : Table} (h : t.Measured) {mc : Measure × List String}
    (hmc : mc ∈ t.announced) {p : PlacedRow} (hp : p ∈ mc.1.members) :
    t.metered p = Measure.mark mc p.1 p.2 := by
  have hm : mc.1 ∈ t.measures := map_fst_announced t ▸ List.mem_map_of_mem hmc
  have hkeys : (t.announced.map fun mc => mc.1.key).Nodup := by
    have hnodup := h.nodup_measures
    rw [← map_fst_announced, List.map_map] at hnodup
    exact hnodup
  unfold Table.metered
  rw [((h.counted hm).rows p hp).2, Option.bind_some, find?_key hkeys hmc]

/-- The rows that take time, measure by measure. -/
theorem Table.Measured.linked_withMetersText_iff {t : Table} (h : t.Measured)
    {R : Option Row → Row → Prop} : Linked Row.isRhythm R none t.withMetersText
      ↔ Linked Row.isRhythm R none ((t.measures.flatMap Measure.members).map t.metered) := by
  have hrhythm : ∀ p, (t.metered p).isRhythm = p.1.isRhythm := by
    intro p
    obtain ⟨meter, directive, hrow, -⟩ := metered_spec t p
    rw [hrow]
    rfl
  have hrows : (t.zipIdx.map t.metered).filter (·.isRhythm)
      = (t.measures.flatMap Measure.members).map t.metered := by
    rw [List.filter_map, h.flatMap_measures]
    exact congrArg (List.map t.metered) (List.filter_congr fun p _ => hrhythm p)
  rw [withMetersText_eq, linked_setField_iff, ← Linked.filter_iff, hrows]

/-- Every row announces its unit and meter against the row before it. -/
theorem withMetersText_linked {t : Table} (h : t.Measured) {heading : Rat}
    (hunits : Linked Row.isRhythm (Row.InUnit heading) none t)
    (hplain : ∀ r ∈ t, r.isRhythm = true → r.directive = "") :
    Linked Row.isRhythm Row.Metered none t.withMetersText := by
  rw [h.linked_withMetersText_iff]
  refine @linked_measures t.metered t.measures none none (fun mc hmc p hp => h.metered_eq hmc hp)
    (fun m hm => ⟨h.counted hm, fun p hp => ⟨h.unit_of_mem hunits hm p hp, ?_⟩⟩) h.nodup_measures
    (Or.inl ⟨rfl, rfl⟩)
  have htimed : p ∈ t.timed := by
    rw [← h.flatMap_measures]
    exact List.mem_flatMap.2 ⟨m, hm, hp⟩
  obtain ⟨hz, hpr⟩ := List.mem_filter.1 htimed
  exact hplain p.1 (List.fst_mem_of_mem_zipIdx hz) hpr

/-- The heading has the meter of the first row that takes time. -/
theorem withMetersText_first {t : Table} (h : t.Measured) :
    Linked Row.isRhythm (fun previous r => previous = none → r.meter = some t.headingMeter) none
      t.withMetersText := by
  rw [h.linked_withMetersText_iff]
  cases hms : t.measures with
  | nil => exact Linked.nil
  | cons m ms =>
      have hmeter : (t.metered m.first).meter = some t.headingMeter := by
        have hmc : (m, []) ∈ t.announced := by
          unfold Table.announced
          rw [hms]
          exact List.mem_cons_self
        rw [h.metered_eq hmc List.mem_cons_self, Table.headingMeter, hms]
        obtain ⟨directive, hmark⟩ := mark_spec (m, []) m.first.1 m.first.2
        rw [hmark]
      have hrhythm : (t.metered m.first).isRhythm = true := by
        obtain ⟨meter, directive, hrow, -⟩ := metered_spec t m.first
        rw [hrow]
        exact ((h.counted (hms ▸ List.mem_cons_self)).rows m.first List.mem_cons_self).1
      refine (Linked.first Row.isRhythm _).imp fun previous r _ _ hfirst hnone => ?_
      have hfound : some (t.metered m.first) = some r :=
        (List.find?_cons_of_pos hrhythm).symm.trans (hfirst hnone)
      rw [← Option.some.inj hfound]
      exact hmeter

theorem mem_withMetersText {t : Table} {r : Row} (h : r ∈ t.withMetersText)
    (hr : r.source ≠ .header) :
    ∃ q ∈ t, ∃ meter directive, r = { q with meter := meter, directive := directive }
      ∧ (q.isRhythm = false → directive = q.directive) := by
  obtain ⟨p, hp, rfl⟩ := List.mem_map.1 (mem_of_mem_setField h hr)
  obtain ⟨meter, directive, hrow, hkept⟩ := metered_spec t p
  exact ⟨p.1, List.fst_mem_of_mem_zipIdx hp, meter, directive, hrow, fun h => (hkept h).2⟩

theorem fields_withMetersText (t : Table) :
    t.withMetersText.fields
      = t.fields.map fun f => if f.1 = "M" then (f.1, t.headingMeter) else f := by
  rw [withMetersText_eq, fields_setField, fields_zipIdx_map]
  · intro p _
    obtain ⟨meter, directive, hrow, -⟩ := metered_spec t p
    rw [hrow]
    exact ⟨rfl, rfl⟩
  · intro p _ _
    obtain ⟨meter, directive, hrow, -⟩ := metered_spec t p
    rw [hrow]

theorem withMetersText_inUnit {t : Table} {heading : Rat}
    (h : Linked Row.isRhythm (Row.InUnit heading) none t) :
    Linked Row.isRhythm (Row.InUnit heading) none t.withMetersText := by
  rw [withMetersText_eq, linked_setField_iff]
  refine linked_inUnit_zipIdx_map (fun p _ => ?_) h
  obtain ⟨meter, directive, hrow, -⟩ := metered_spec t p
  rw [hrow]
  exact ⟨rfl, rfl⟩

end LyricScore
