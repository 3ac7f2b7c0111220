/-
Beats and measures as stretches. In a table in the order of its measures, the rows of a measure are
neighbours among the rows that are heard; in a table that is laid out, so are the rows of a beat.
So the line of what is heard falls into beats and barlines; the beats of the table are those
stretches in order. In any table every row that takes time finds its own beat.
-/
import LyricScore.Proofs.Table.Classes
import LyricScore.Proofs.Table.Frame

namespace LyricScore

-- ============================================================ places

theorem pairwise_zipIdx {R : Row → Row → Prop} {t : Table} (h : t.Pairwise R) :
    t.zipIdx.Pairwise fun p q => R p.1 q.1 := by
  refine List.pairwise_map.1 (?_ : (t.zipIdx.map Prod.fst).Pairwise R)
  rwa [List.zipIdx_map_fst]

/-- Places grow along a table. -/
theorem pairwise_place (t : Table) : t.zipIdx.Pairwise fun p q => p.2 < q.2 := by
  refine List.pairwise_map.1 (?_ : (t.zipIdx.map Prod.snd).Pairwise (· < ·))
  rw [List.zipIdx_map_snd]
  exact List.pairwise_lt_range'

/-- The places of a table whose rows were replaced. -/
theorem zipIdx_zipIdx_map (t : Table) (f : PlacedRow → Row) :
    (t.zipIdx.map f).zipIdx = t.zipIdx.map fun p => (f p, p.2) := by
  refine List.ext_getElem? fun i => ?_
  simp only [List.getElem?_zipIdx, List.getElem?_map]
  cases t[i]? with
  | none => rfl
  | some r => simp

namespace Table

/-- The rows that are heard, with their places. -/
def spoken (t : Table) : List PlacedRow :=
  t.zipIdx.filter fun p => p.1.isSpoken

theorem pairwise_place_spoken (t : Table) : t.spoken.Pairwise fun p q => p.2 < q.2 :=
  (pairwise_place t).filter _

theorem isSpoken_of_mem_spoken {t : Table} {p : PlacedRow} (h : p ∈ t.spoken) :
    p.1 ∈ t ∧ p.1.isSpoken = true := by
  obtain ⟨hz, hspoken⟩ := List.mem_filter.1 h
  exact ⟨List.fst_mem_of_mem_zipIdx hz, hspoken⟩

end Table

-- ============================================================== keys

/-- What the key of a beat says about its rows. -/
theorem beatKey?_eq_some {r : Row} {k : BeatKey} :
    r.beatKey? = some k ↔ r.isRhythm = true ∧ r.block = k.block ∧ r.measure = some k.measure
      ∧ r.beat = some k.beat := by
  constructor
  · intro h
    unfold Row.beatKey? at h
    split at h
    · next hrhythm =>
      split at h
      · next measure beat hm hb =>
        obtain rfl := Option.some.inj h
        exact ⟨hrhythm, rfl, hm, hb⟩
      · cases h
    · cases h
  · rintro ⟨hrhythm, hblock, hm, hb⟩
    unfold Row.beatKey?
    rw [if_pos hrhythm, hm, hb, hblock]

theorem measureKey?_eq_some {r : Row} {k : MeasureKey} :
    r.measureKey? = some k ↔ r.isRhythm = true ∧ r.block = k.block ∧ r.measure = some k.measure := by
  unfold Row.measureKey?
  constructor
  · intro h
    split at h
    · next hrhythm =>
      obtain ⟨measure, hm, rfl⟩ := Option.map_eq_some_iff.1 h
      exact ⟨hrhythm, rfl, hm⟩
    · cases h
  · rintro ⟨hrhythm, hblock, hm⟩
    rw [if_pos hrhythm, hm, hblock]
    rfl

theorem measureKey?_of_beatKey? {r : Row} {k : BeatKey} (h : r.beatKey? = some k) :
    r.measureKey? = some k.inMeasure := by
  obtain ⟨hrhythm, hblock, hmeasure, -⟩ := beatKey?_eq_some.1 h
  exact measureKey?_eq_some.2 ⟨hrhythm, hblock, hmeasure⟩

theorem Row.Placed.beatKey? {r : Row} (h : r.Placed) (hr : r.isRhythm = true) :
    ∃ k, r.beatKey? = some k := by
  obtain ⟨measure, beat, -, hm, hb, -⟩ := h.rhythm hr
  exact ⟨⟨r.block, measure, beat⟩, beatKey?_eq_some.2 ⟨hr, rfl, hm, hb⟩⟩

theorem isSpoken_of_isRhythm {r : Row} (h : r.isRhythm = true) : r.isSpoken = true := by
  unfold Row.isSpoken
  rw [h]
  rfl

theorem measureRank_of_isRhythm {r : Row} (h : r.isRhythm = true) :
    r.measureRank = r.measure.getD 0 := by
  simp [Row.measureRank, isLyricBarline_of_isRhythm h]

theorem source_of_isSpoken {r : Row} (h : r.isSpoken = true) : r.source = .lyric := by
  simp only [Row.isSpoken, Row.isRhythm, Keys.isLyricBarline, Bool.or_eq_true, Bool.and_eq_true,
    beq_iff_eq] at h
  exact h.elim (·.1) (·.1)

-- ============================================================= beats

/-- A beat of a table is made of the rows of its key. -/
theorem mem_beats {t : Table} {g : BeatGroup} (h : g ∈ t.beats) :
    g.members = t.zipIdx.filter fun p => decide (p.1.beatKey? = some g.key) := by
  obtain ⟨⟨key, ps⟩, hc, hg⟩ := List.mem_filterMap.1 h
  have hmembers := mem_classes hc
  cases ps with
  | nil => cases hg
  | cons p ps =>
      obtain rfl := Option.some.inj hg
      exact hmembers

/-- Among elements with different keys, a key finds its own element. -/
theorem find?_key {α κ : Type} [DecidableEq κ] {key : α → κ} {l : List α} {a : α}
    (hkeys : (l.map key).Nodup) (ha : a ∈ l) :
    l.find? (fun b => decide (key b = key a)) = some a := by
  induction l with
  | nil => cases ha
  | cons b l ih =>
      obtain ⟨hnot, hkeys⟩ := List.nodup_cons.1 hkeys
      rcases List.mem_cons.1 ha with rfl | ha
      · exact List.find?_cons_of_pos (decide_eq_true rfl)
      · have hne : key b ≠ key a := fun heq => hnot (List.mem_map.2 ⟨a, ha, heq.symm⟩)
        rw [List.find?_cons_of_neg (by simpa using hne)]
        exact ih hkeys ha

namespace Table

variable {t : Table} {g : BeatGroup}

/-- The rows of a beat have its key, and they stand in the table. -/
theorem mem_beat (hg : g ∈ t.beats) {p : PlacedRow} (hp : p ∈ g.members) :
    p ∈ t.zipIdx ∧ p.1.beatKey? = some g.key := by
  rw [mem_beats hg] at hp
  obtain ⟨hmem, hkey⟩ := List.mem_filter.1 hp
  exact ⟨hmem, of_decide_eq_true hkey⟩

/-- The rows of a beat are rows of the table that take time. -/
theorem isRhythm_of_mem_beat (hg : g ∈ t.beats) {p : PlacedRow} (hp : p ∈ g.members) :
    p.1 ∈ t ∧ p.1.isRhythm = true := by
  obtain ⟨hmem, hkey⟩ := mem_beat hg hp
  exact ⟨List.fst_mem_of_mem_zipIdx hmem, (beatKey?_eq_some.1 hkey).1⟩

/-- The rows of a beat in the order of their places. -/
theorem pairwise_members (hg : g ∈ t.beats) : g.members.Pairwise fun p q => p.2 < q.2 := by
  rw [mem_beats hg]
  exact (pairwise_place t).filter _

theorem nodup_keys (t : Table) : (t.beats.map (·.key)).Nodup := by
  refine List.pairwise_map.2 (List.Pairwise.filterMap _ ?_ (List.pairwise_map.1 (nodup_classes _ _)))
  intro c c' hne g hg g' hg'
  -- a beat has the key of its class
  have hkey : ∀ {c : BeatKey × List PlacedRow} {g : BeatGroup},
      BeatGroup.ofMembers? c.1 c.2 = some g → g.key = c.1 := by
    intro c g hg
    unfold BeatGroup.ofMembers? at hg
    split at hg
    · cases hg
    · exact congrArg BeatGroup.key (Option.some.inj hg).symm
  rwa [hkey hg, hkey hg']

/-- Every row of a beat finds that beat. -/
theorem beatOf?_of_mem (hg : g ∈ t.beats) {p : PlacedRow} (hp : p ∈ g.members) :
    Table.beatOf? t.beats p.1 = some g := by
  unfold Table.beatOf?
  rw [(mem_beat hg hp).2]
  exact find?_key t.nodup_keys hg

end Table

/-- Among the rows that are heard, what stands between two rows of a measure belongs to it. -/
theorem Table.Measured.between {t : Table} (h : t.Measured) {a b c : PlacedRow}
    (hsub : [a, b, c].Sublist t.spoken) (ha : a.1.isRhythm = true) (hc : c.1.isRhythm = true)
    (hblock : a.1.block = c.1.block) (hmeasure : a.1.measure = c.1.measure) :
    b.1.isRhythm = true ∧ b.1.block = a.1.block ∧ b.1.measure = a.1.measure := by
  have hmem : ∀ p ∈ [a, b, c], p.1 ∈ t ∧ p.1.isSpoken = true := fun p hp =>
    Table.isSpoken_of_mem_spoken (hsub.subset hp)
  have hpair := ((pairwise_zipIdx h.ordered).filter _).sublist hsub
  simp only [List.pairwise_cons, List.mem_cons, List.not_mem_nil, or_false] at hpair
  have hab : a.1.Forward b.1 := hpair.1 b (Or.inl rfl)
  have hbc : b.1.Forward c.1 := hpair.2.1 c rfl
  obtain ⟨hat, hsa⟩ := hmem a (by simp)
  obtain ⟨hbt, hsb⟩ := hmem b (by simp)
  obtain ⟨-, hsc⟩ := hmem c (by simp)
  have hsource : ∀ {r : Row}, r.isSpoken = true → r.source ≠ .header := fun hr => by
    rw [source_of_isSpoken hr]
    decide
  have hb₁ := hab.1 (hsource hsa) (hsource hsb)
  have hb₂ := hbc.1 (hsource hsb) (hsource hsc)
  have hrank₁ := hab.2 hsa hsb (Or.inl ha) (by omega)
  have hrank₂ := hbc.2 hsb hsc (Or.inr hc) (by omega)
  rw [measureRank_of_isRhythm ha] at hrank₁
  rw [← hmeasure] at hrank₂
  have hbr : b.1.isRhythm = true := by
    rcases Bool.or_eq_true _ _ ▸ hsb with hbr | hbar
    · exact hbr
    · -- a barline ranks behind its measure
      simp only [Row.measureRank, hbar, if_pos] at hrank₂
      omega
  rw [measureRank_of_isRhythm hbr] at hrank₂
  obtain ⟨ma, hma⟩ := h.measure a.1 hat ha
  obtain ⟨mb, hmb⟩ := h.measure b.1 hbt hbr
  refine ⟨hbr, by omega, ?_⟩
  rw [hma, hmb] at hrank₁ hrank₂ ⊢
  simp only [Option.getD_some] at hrank₁ hrank₂
  congr 1
  omega

theorem Table.Measured.gathered_measures {t : Table} (h : t.Measured) :
    Gathered (fun p : PlacedRow => p.1.measureKey?) t.spoken := by
  intro a b c k hsub ha hc
  obtain ⟨hra, hba, hma⟩ := measureKey?_eq_some.1 ha
  obtain ⟨hrc, hbc, hmc⟩ := measureKey?_eq_some.1 hc
  obtain ⟨hr, hb, hm⟩ :=
    h.between hsub hra hrc (hba.trans hbc.symm) (hma.trans hmc.symm)
  exact measureKey?_eq_some.2 ⟨hr, hb.trans hba, hm.trans hma⟩

/-- Of three rows of a measure, the one between two rows of a beat belongs to the beat. -/
theorem Row.Precedes.beat_eq {a b c : Row} (hab : a.Precedes b) (hbc : b.Precedes c)
    (ha : a.isRhythm = true) (hb : b.isRhythm = true) (hc : c.isRhythm = true)
    (hab' : b.block = a.block ∧ b.measure = a.measure)
    (hac' : c.block = a.block ∧ c.measure = a.measure) {beat beat' : Int}
    (hbeat : a.beat = some beat) (hbeat' : b.beat = some beat') (hcbeat : c.beat = some beat) :
    beat' = beat := by
  have hrank₁ := hab.2 (isSpoken_of_isRhythm ha) (isSpoken_of_isRhythm hb) hab'.1.symm
  have hrank₂ := hbc.2 (isSpoken_of_isRhythm hb) (isSpoken_of_isRhythm hc)
    (hab'.1.trans hac'.1.symm)
  rw [measureRank_of_isRhythm hb, measureRank_of_isRhythm ha, hab'.2] at hrank₁
  rw [measureRank_of_isRhythm hb, measureRank_of_isRhythm hc, hab'.2, hac'.2] at hrank₂
  simp only [Row.beatRank, hbeat, hbeat', hcbeat, Option.getD_some] at hrank₁ hrank₂
  omega

theorem Table.Laid.gathered_beats {t : Table} (h : t.Laid) :
    Gathered (fun p : PlacedRow => p.1.beatKey?) t.spoken := by
  intro a b c k hsub ha hc
  obtain ⟨hra, hba, hma, hta⟩ := beatKey?_eq_some.1 ha
  obtain ⟨hrc, hbc, hmc, htc⟩ := beatKey?_eq_some.1 hc
  obtain ⟨hr, hb, hm⟩ :=
    h.measured.between hsub hra hrc (hba.trans hbc.symm) (hma.trans hmc.symm)
  have hbt : b.1 ∈ t := (Table.isSpoken_of_mem_spoken (hsub.subset (by simp))).1
  obtain ⟨-, beat, -, -, hbeat, -⟩ := (h.placed b.1 hbt).rhythm hr
  have hpair := ((pairwise_zipIdx h.ordered).filter _).sublist hsub
  simp only [List.pairwise_cons, List.mem_cons, List.not_mem_nil, or_false] at hpair
  have heq : beat = k.beat := (hpair.1 b (Or.inl rfl)).beat_eq (hpair.2.1 c rfl) hra hr hrc
    ⟨hb, hm⟩ ⟨hbc.trans hba.symm, hmc.trans hma.symm⟩ hta hbeat htc
  exact beatKey?_eq_some.2 ⟨hr, hb.trans hba, hm.trans hma, hbeat.trans (congrArg some heq)⟩

-- =========================================================== phrases

/-- The beats and barlines of a table, in order. -/
def Table.phrases (t : Table) : List (Stretch BeatKey PlacedRow) :=
  stretches (fun p : PlacedRow => p.1.beatKey?) t.spoken

/-- The beat that a stretch makes. -/
def Stretch.beat? : Stretch BeatKey PlacedRow → Option BeatGroup
  | .group key first others => some ⟨key, first, others⟩
  | .single _ => none

theorem Table.Laid.beats_eq {t : Table} (h : t.Laid) : t.beats = t.phrases.filterMap Stretch.beat? := by
  have hspoken : ∀ (p : PlacedRow) (k : BeatKey), p.1.beatKey? = some k → p.1.isSpoken = true :=
    fun p k hk => isSpoken_of_isRhythm (beatKey?_eq_some.1 hk).1
  unfold Table.beats
  rw [← classes_filter hspoken, ← Table.spoken, classes_eq_gatheredClasses h.gathered_beats,
    gatheredClasses, List.filterMap_filterMap]
  unfold Table.phrases
  congr 1
  funext s
  cases s <;> rfl

-- ============================================== beats of another table

/-- A beat whose rows were replaced. -/
def BeatGroup.mapRows (f : PlacedRow → Row) (g : BeatGroup) : BeatGroup :=
  ⟨g.key, (f g.first, g.first.2), g.others.map fun p => (f p, p.2)⟩

namespace BeatGroup

variable {f : PlacedRow → Row} {g : BeatGroup}

theorem count_mapRows (f : PlacedRow → Row) (g : BeatGroup) : (g.mapRows f).count = g.count :=
  congrArg (· + 1) (List.length_map _)

section Times

-- a beat has its unit and its duration from its first row, and the rest of its times from these
variable (hunit : (f g.first).effectiveUnit = g.first.1.effectiveUnit)
include hunit

theorem compound_mapRows : (g.mapRows f).compound = g.compound :=
  congrArg (· == compoundUnit) hunit

theorem bracketed_mapRows : (g.mapRows f).bracketed = g.bracketed := by
  unfold bracketed
  rw [count_mapRows, compound_mapRows hunit]

theorem opening_mapRows : (g.mapRows f).opening = g.opening := by
  unfold opening
  rw [count_mapRows, compound_mapRows hunit, bracketed_mapRows hunit]

variable (hduration : (f g.first).effectiveDuration = g.first.1.effectiveDuration)
include hduration

theorem length_mapRows : (g.mapRows f).length = g.length := by
  have hunit : (g.mapRows f).unit = g.unit := hunit
  have hduration : (g.mapRows f).duration = g.duration := hduration
  unfold length
  rw [count_mapRows, hunit, hduration]

theorem span_mapRows : (g.mapRows f).span = g.span := by
  have hduration' : (g.mapRows f).duration = g.duration := hduration
  unfold span
  rw [count_mapRows, compound_mapRows hunit, length_mapRows hunit hduration, hduration']

end Times

end BeatGroup

/-- Rows that keep their beats keep them together. -/
theorem beats_zipIdx_map {t : Table} {f : PlacedRow → Row}
    (hf : ∀ p ∈ t.zipIdx, (f p).beatKey? = p.1.beatKey?) :
    Table.beats (t.zipIdx.map f) = t.beats.map (BeatGroup.mapRows f) := by
  have hclasses := @classes_map PlacedRow PlacedRow BeatKey _ (·.1.beatKey?) (·.1.beatKey?)
    (fun p => (f p, p.2)) t.zipIdx hf
  unfold Table.beats
  rw [zipIdx_zipIdx_map, hclasses, List.filterMap_map, List.map_filterMap]
  congr 1
  funext c
  obtain ⟨k, ps⟩ := c
  cases ps <;> rfl

-- ======================================================= placed beats

theorem map_toBeatGroup_place (earlier groups : List BeatGroup) :
    (BeatGroup.place earlier groups).map PlacedBeat.toBeatGroup = groups := by
  induction groups generalizing earlier with
  | nil => rfl
  | cons g groups ih => exact congrArg (g :: ·) (ih (earlier ++ [g]))

theorem map_toBeatGroup_placedBeats (t : Table) :
    t.placedBeats.map PlacedBeat.toBeatGroup = t.beats :=
  map_toBeatGroup_place [] t.beats

end LyricScore
