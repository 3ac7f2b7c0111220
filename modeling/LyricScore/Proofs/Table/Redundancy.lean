/-
Keys that say nothing new. A signature for the key in force is not announced, so it seems that every
key announced is another one than the key before it, and that the changes of key are as many as the
rows that bring one. Neither is so. A barline takes every signature that stands behind it: each is
written over the one before it and counted as a change, and the last one may go back to the key in
front of the barline. And a signature is compared with the key in force among the signatures, which
is not the key that a reader is in where one of them overtook another.

# The argument

Signatures in their order go to places in their order, but for those that overtake. So in front of
the first signature that goes to a row, the last change of key is what the reader met last, unless
overtaking has a part in it: then the row is out of step. A row in step is redundant only if its
barline took several signatures, for the first of them has another key than the one in force.
-/
import LyricScore.Proofs.Table.Replay
import Mathlib.Data.List.Dedup
import Mathlib.Data.List.TakeWhile

namespace LyricScore

-- ======================================================== vocabulary

/-- The place that a signature is announced at. -/
def KeyMark.place? (m : KeyMark) : Option Nat :=
  match m.effect with
  | .atNote place => some place
  | .atBarline place => some place
  | _ => none

/-- The signatures that a later one is written over, at the same place. -/
def KeyMark.overwritten : List KeyMark → List KeyMark
  | [] => []
  | m :: rest =>
    if m.place?.isSome && rest.any (fun m' => m'.place? == m.place?) then m :: overwritten rest
    else overwritten rest

namespace Table

/-- The signatures in front of the first one that goes to a place. -/
def keyMarksAhead (t : Table) (place : Nat) : List KeyMark :=
  t.keyMarks.takeWhile fun m => !m.goesTo place

/-- Whether overtaking has a part in what a reader meets at a place: a signature that goes there
overtakes another one or is overtaken, or the last change of key in front of it is. -/
def outOfStep (t : Table) (place : Nat) : Bool :=
  t.keyMarks.any fun lead => t.keyMarks.any fun m =>
    lead.overtakes m && (lead.goesTo place || m.goesTo place
      || KeyMark.lastChange? (t.keyMarksAhead place) == some m)

/-- The places of the lyric rows that bring a key. -/
def keyPlaces (t : Table) : List Nat :=
  (t.zipIdx.filter fun p => decide (p.1.source = .lyric) && p.1.key.isSome).map (·.2)

/-- The key in front of a place for a reader who starts with the heading and goes along with the
keys that the lyric rows bring. -/
def keyBefore (t : Table) (place : Nat) : String :=
  ((t.take place).filter fun r => decide (r.source = .lyric)).foldl (fun key r => r.key.getD key)
    ((t.field? "K").getD "")

end Table

theorem place?_eq_some {m : KeyMark} {place : Nat} :
    m.place? = some place ↔ m.goesTo place = true := by
  rw [goesTo_eq_true]
  unfold KeyMark.place?
  cases m.effect <;> simp

theorem mem_places {ms : List KeyMark} {place : Nat} :
    place ∈ ms.filterMap KeyMark.place? ↔ ∃ m ∈ ms, m.goesTo place = true := by
  simp only [List.mem_filterMap, place?_eq_some]

/-- A signature goes to one place. -/
theorem goesTo_inj {m : KeyMark} {i j : Nat} (hi : m.goesTo i = true) (hj : m.goesTo j = true) :
    i = j :=
  Option.some.inj ((place?_eq_some.2 hi).symm.trans (place?_eq_some.2 hj))

-- ============================================================ counts

/-- The changes that are counted are the signatures that are announced. -/
theorem lookup_changes (ms : List KeyMark) :
    (Stage.keyFigures ms).lookup "changes" = some (.count (ms.filterMap KeyMark.place?).length) := by
  have hsame : ms.filter (fun m => m.effect.changesKey && m.effect != .heading)
      = ms.filter fun m => m.place?.isSome := by
    refine List.filter_congr fun m _ => ?_
    unfold KeyMark.place?
    cases m.effect <;> rfl
  have hlength : (ms.filterMap KeyMark.place?).length
      = (ms.filter fun m => m.effect.changesKey && m.effect != .heading).length := by
    rw [hsame, List.length_filterMap_eq_countP, List.countP_eq_length_filter]
  have hother : ("changes" == "header_key") = false := by decide
  unfold Stage.keyFigures
  rw [List.lookup_cons, hother, hlength]
  exact List.lookup_cons_self

/-- Whether a signature is written over. -/
theorem isOverwritten_iff {m : KeyMark} {rest : List KeyMark} :
    (m.place?.isSome && rest.any fun m' => m'.place? == m.place?) = true
      ↔ ∃ place, m.goesTo place = true ∧ ∃ m' ∈ rest, m'.goesTo place = true := by
  rw [Bool.and_eq_true, Option.isSome_iff_exists, List.any_eq_true]
  constructor
  · rintro ⟨⟨place, hplace⟩, m', hm', hsame⟩
    exact ⟨place, place?_eq_some.1 hplace, m', hm', place?_eq_some.1 ((eq_of_beq hsame).trans hplace)⟩
  · rintro ⟨place, hm, m', hm', hgoes⟩
    rw [place?_eq_some.2 hm]
    exact ⟨⟨place, rfl⟩, m', hm', beq_iff_eq.2 (place?_eq_some.2 hgoes)⟩

/-- A signature that is written over has one behind it that goes to the same place. -/
theorem mem_overwritten {ms : List KeyMark} {m : KeyMark} :
    m ∈ KeyMark.overwritten ms ↔ ∃ ahead rest place, ms = ahead ++ m :: rest
      ∧ m.goesTo place = true ∧ ∃ m' ∈ rest, m'.goesTo place = true := by
  induction ms with
  | nil => simp [KeyMark.overwritten]
  | cons a ms ih =>
      rw [KeyMark.overwritten]
      constructor
      · intro hm
        have hcases : m = a ∧ (a.place?.isSome && ms.any fun m' => m'.place? == a.place?) = true
            ∨ m ∈ KeyMark.overwritten ms := by
          split at hm
          · next hover => exact (List.mem_cons.1 hm).imp_left fun heq => ⟨heq, hover⟩
          · exact Or.inr hm
        rcases hcases with ⟨rfl, hover⟩ | hm
        · obtain ⟨place, hgoes, hlater⟩ := isOverwritten_iff.1 hover
          exact ⟨[], ms, place, rfl, hgoes, hlater⟩
        · obtain ⟨ahead, rest, place, rfl, hgoes, hlater⟩ := ih.1 hm
          exact ⟨a :: ahead, rest, place, rfl, hgoes, hlater⟩
      · rintro ⟨ahead, rest, place, hsplit, hgoes, hlater⟩
        cases ahead with
        | nil =>
            obtain ⟨rfl, rfl⟩ := List.cons.inj hsplit
            rw [if_pos (isOverwritten_iff.2 ⟨place, hgoes, hlater⟩)]
            exact List.mem_cons_self
        | cons b ahead =>
            obtain ⟨rfl, hrest⟩ := List.cons.inj hsplit
            have hmem := ih.2 ⟨ahead, rest, place, hrest, hgoes, hlater⟩
            split
            · exact List.mem_cons_of_mem _ hmem
            · exact hmem

/-- Of the signatures that go to one place, all but the last are written over. -/
theorem length_places (ms : List KeyMark) :
    (ms.filterMap KeyMark.place?).length
      = (ms.filterMap KeyMark.place?).dedup.length + (KeyMark.overwritten ms).length := by
  induction ms with
  | nil => rfl
  | cons m ms ih =>
      rw [KeyMark.overwritten]
      cases hplace : m.place? with
      | none => simpa [List.filterMap_cons_none hplace] using ih
      | some place =>
          have hiff : (m.place?.isSome && ms.any fun m' => m'.place? == m.place?) = true
              ↔ place ∈ ms.filterMap KeyMark.place? := by
            rw [isOverwritten_iff, mem_places]
            constructor
            · rintro ⟨place', hgoes, hlater⟩
              rwa [goesTo_inj (place?_eq_some.1 hplace) hgoes]
            · exact fun hlater => ⟨place, place?_eq_some.1 hplace, hlater⟩
          rw [hplace] at hiff
          rw [List.filterMap_cons_some hplace]
          by_cases hmem : place ∈ ms.filterMap KeyMark.place?
          · rw [if_pos (hiff.2 hmem), List.dedup_cons_of_mem hmem, List.length_cons, List.length_cons,
              ih, Nat.add_assoc]
          · rw [if_neg fun hover => hmem (hiff.1 hover), List.dedup_cons_of_notMem hmem,
              List.length_cons, List.length_cons, ih]
            omega

-- ============================================== rows with their keys

/-- The lyric rows with their keys, by places. -/
theorem mem_zipIdx_withKeys {t : Table} {r : Row} {place : Nat} (hlyric : r.source = .lyric) :
    (r, place) ∈ t.withKeys.zipIdx
      ↔ ∃ r', (r', place) ∈ t.zipIdx ∧ r'.source = .lyric ∧ r = Keys.annotate t.keyMarks r' place := by
  have hkept : ∀ p : PlacedRow, (Keys.annotate t.keyMarks p.1 p.2).source = p.1.source := by
    intro p
    have hsource := congrArg Row.source (sung_annotate t.keyMarks p.1 p.2)
    exact hsource
  simp only [Table.withKeys, Table.setField]
  rw [List.map_map, zipIdx_zipIdx_map]
  constructor
  · intro h
    obtain ⟨⟨r', place'⟩, hmem, heq⟩ := List.mem_map.1 h
    obtain ⟨rfl, rfl⟩ := Prod.mk.inj heq
    simp only [Function.comp_apply] at hlyric ⊢
    split at hlyric
    · next hheader =>
      rw [hheader.1] at hlyric
      cases hlyric
    · next hheader =>
      rw [if_neg hheader]
      exact ⟨r', hmem, (hkept (r', place')).symm.trans hlyric, rfl⟩
  · rintro ⟨r', hmem, hsource, rfl⟩
    refine List.mem_map.2 ⟨(r', place), hmem, ?_⟩
    simp only [Function.comp_apply]
    rw [if_neg fun hheader => ?_]
    rw [hlyric] at hheader
    cases hheader.1

/-- A lyric row brings the key of the last signature that goes to it. -/
theorem key_withKeys {t : Table} (hplain : t.Keyless) {r : Row} {place : Nat}
    (hr : (r, place) ∈ t.withKeys.zipIdx) (hlyric : r.source = .lyric) :
    r.key = (t.keyMarks.reverse.find? fun m => m.goesTo place).map (·.key) := by
  obtain ⟨r', hr', hsource, rfl⟩ := (mem_zipIdx_withKeys hlyric).1 hr
  exact key_annotate hplain hr' hsource

/-- A signature goes to a lyric row. -/
theorem row_withKeys_of_goesTo {t : Table} {m : KeyMark} (hm : m ∈ t.keyMarks) {place : Nat}
    (h : m.goesTo place = true) : ∃ r, (r, place) ∈ t.withKeys.zipIdx ∧ r.source = .lyric := by
  obtain ⟨r, hr, hlyric, -⟩ := row_of_goesTo hm h
  have hkept := congrArg Row.source (sung_annotate t.keyMarks r place)
  have hsource : (Keys.annotate t.keyMarks r place).source = .lyric := hkept.trans hlyric
  exact ⟨_, (mem_zipIdx_withKeys hsource).2 ⟨r, hr, hlyric, rfl⟩, hsource⟩

/-- The rows that bring a key are the ones that signatures go to. -/
theorem mem_keyPlaces_withKeys {t : Table} (hplain : t.Keyless) {place : Nat} :
    place ∈ t.withKeys.keyPlaces ↔ place ∈ t.keyMarks.filterMap KeyMark.place? := by
  unfold Table.keyPlaces
  rw [mem_places, List.mem_map]
  constructor
  · rintro ⟨⟨r, place⟩, hr, rfl⟩
    obtain ⟨hr, hrow⟩ := List.mem_filter.1 hr
    obtain ⟨hlyric, hkey⟩ := Bool.and_eq_true_iff.1 hrow
    rw [key_withKeys hplain hr (of_decide_eq_true hlyric), Option.isSome_map] at hkey
    obtain ⟨m, hm, hgoes⟩ := List.find?_isSome.1 hkey
    exact ⟨m, List.mem_reverse.1 hm, hgoes⟩
  · rintro ⟨m, hm, hgoes⟩
    obtain ⟨r, hr, hlyric⟩ := row_withKeys_of_goesTo hm hgoes
    refine ⟨(r, place), List.mem_filter.2 ⟨hr, Bool.and_eq_true_iff.2 ⟨decide_eq_true hlyric, ?_⟩⟩, rfl⟩
    rw [key_withKeys hplain hr hlyric, Option.isSome_map]
    exact List.find?_isSome.2 ⟨m, List.mem_reverse.2 hm, hgoes⟩

theorem length_keyPlaces_withKeys {t : Table} (hplain : t.Keyless) :
    t.withKeys.keyPlaces.length = (t.keyMarks.filterMap KeyMark.place?).dedup.length := by
  have hnodup : t.withKeys.keyPlaces.Nodup :=
    List.pairwise_map.2 (((pairwise_place t.withKeys).filter _).imp Nat.ne_of_lt)
  refine List.Perm.length_eq ((List.perm_ext_iff_of_nodup hnodup (List.nodup_dedup _)).2 fun place => ?_)
  rw [mem_keyPlaces_withKeys hplain, List.mem_dedup]

-- ================================================ signatures in order

namespace Keys

/-- Where one of the signatures is read. -/
theorem marks_eq_append {t : Table} {s : State} {rows : List PlacedRow} {ahead rest : List KeyMark}
    {m : KeyMark} (h : marks t s rows = ahead ++ m :: rest) :
    ∃ before p after, rows = before ++ p :: after ∧ marks t s before = ahead
      ∧ mark? t (before.foldl (State.behind t) s) p = some m := by
  induction rows generalizing s ahead with
  | nil =>
      rw [marks] at h
      simp at h
  | cons p rows ih =>
      rw [marks_cons] at h
      cases hmark : mark? t s p with
      | none =>
          rw [hmark] at h
          obtain ⟨before, q, after, rfl, hbefore, hq⟩ := ih h
          refine ⟨p :: before, q, after, rfl, ?_, hq⟩
          rw [marks_cons, hmark, hbefore]
          rfl
      | some first =>
          rw [hmark] at h
          cases ahead with
          | nil =>
              obtain ⟨rfl, -⟩ := List.cons.inj h
              exact ⟨[], p, rows, rfl, rfl, hmark⟩
          | cons a ahead =>
              obtain ⟨rfl, hrest⟩ := List.cons.inj h
              obtain ⟨before, q, after, rfl, hbefore, hq⟩ := ih hrest
              refine ⟨p :: before, q, after, rfl, ?_, hq⟩
              rw [marks_cons, hmark, hbefore]
              rfl

theorem effect_of_mark? {t : Table} {s : State} {p : PlacedRow} {m : KeyMark}
    (h : mark? t s p = some m) : m.effect = effect t (s.enter p.1) p.1 m.key := by
  unfold mark? at h
  split at h
  · generalize (keyName? p.1.raw).getD defaultKey = key at h
    obtain rfl := Option.some.inj h
    rfl
  · cases h

/-- A signature changes the key only to another one. -/
theorem ne_of_changesKey {t : Table} {s : State} {r : Row} {key : String}
    (h : (effect t s r key).changesKey = true) : s.active ≠ some key := by
  intro hactive
  unfold effect at h
  rw [hactive] at h
  simp [KeyEffect.changesKey] at h

end Keys

namespace Table.Measured

variable {t : Table} {place : Nat} {first : KeyMark} {ahead rest : List KeyMark}

/-- What is known where a signature is read. -/
theorem seen_ahead (h : t.Measured) (hsplit : t.keyMarks = ahead ++ first :: rest) :
    ∃ s before p, Keys.Seen t s before ahead ∧ Keys.mark? t s p = some first := by
  obtain ⟨before, p, after, hrows, hahead, hmark⟩ := Keys.marks_eq_append hsplit
  have hsorted := h.pairwise_pitch
  rw [hrows] at hsorted
  have hseen := (Keys.Seen.start t).run (List.pairwise_append.1 hsorted).1
    fun block hs => (Option.some_ne_none block hs.symm).elim
  rw [List.nil_append, List.nil_append, hahead] at hseen
  exact ⟨_, before, p, hseen, hmark⟩

/-- A signature is announced for another key than the one in force among the signatures. -/
theorem key_ne_lastKey (h : t.Measured) (hsplit : t.keyMarks = ahead ++ first :: rest)
    (hfirst : first.goesTo place = true) : first.key ≠ KeyMark.lastKey ahead := by
  obtain ⟨s, before, p, hseen, hmark⟩ := h.seen_ahead hsplit
  have heffect := Keys.effect_of_mark? hmark
  have hchanges : first.effect.changesKey = true ∧ first.effect ≠ .heading := by
    rcases goesTo_eq_true.1 hfirst with hnote | hbar
    · rw [hnote]
      exact ⟨rfl, KeyEffect.noConfusion⟩
    · rw [hbar]
      exact ⟨rfl, KeyEffect.noConfusion⟩
  rw [heffect] at hchanges
  have hne := Keys.ne_of_changesKey hchanges.1
  obtain ⟨active, hactive⟩ := Option.ne_none_iff_exists'.1 fun hnone =>
    hchanges.2 ((effect_sound t (s.enter p.1) p.1 first.key).heading.2 hnone)
  have hforce := (Keys.enter_spec s p.1).2.1.trans hseen.kept
  rw [hactive, Option.getD_some] at hforce
  rw [hactive, hforce] at hne
  exact fun hsame => hne (congrArg some hsame.symm)

/-- Signatures in their order go to places in their order, but for those that overtake. -/
theorem place_le (h : t.Measured) {m m' : KeyMark} (hm : m ∈ t.keyMarks) (hm' : m' ∈ t.keyMarks)
    (hbefore : m.Before m') {i j : Nat} (hi : m.goesTo i = true) (hj : m'.goesTo j = true) :
    i ≤ j ∨ m.overtakes m' = true := by
  by_cases heq : m.block = m'.block
  · rcases goesTo_eq_true.1 hj with hnote | hbar
    · exact absurd hnote (hbefore.opening heq j)
    · rcases goesTo_eq_true.1 hi with hnote | hbar'
      · by_cases hle : i ≤ j
        · exact Or.inl hle
        · exact Or.inr (overtakes_eq_true.2 ⟨i, j, hnote, hbar, heq, by omega⟩)
      · exact Or.inl (hbefore.barline heq i j hbar' hbar)
  · have hle := hbefore.block
    exact Or.inl (Nat.le_of_lt (h.goesTo_lt hm hm' hi hj (by omega)))

end Table.Measured

/-- Of the signatures of a place in step none overtakes or is overtaken, nor is the last change in
front of them. -/
theorem not_overtakes_of_inStep {t : Table} {place : Nat} (h : t.outOfStep place = false)
    {lead m : KeyMark} (hlead : lead ∈ t.keyMarks) (hm : m ∈ t.keyMarks)
    (hmeets : lead.goesTo place = true ∨ m.goesTo place = true
      ∨ KeyMark.lastChange? (t.keyMarksAhead place) = some m) : lead.overtakes m = false := by
  unfold Table.outOfStep at h
  have hpair := List.any_eq_false.1 h lead hlead
  rw [Bool.not_eq_true] at hpair
  have hnot := List.any_eq_false.1 hpair m hm
  simp only [Bool.and_eq_true, Bool.or_eq_true, beq_iff_eq, not_and, or_assoc] at hnot
  exact Bool.eq_false_iff.2 fun hover => hnot hover hmeets

/-- The signatures in front of the first one that goes to a place. -/
theorem keyMarksAhead_eq {t : Table} {place : Nat} {first : KeyMark} {ahead rest : List KeyMark}
    (hsplit : t.keyMarks = ahead ++ first :: rest) (hfirst : first.goesTo place = true)
    (hahead : ∀ m ∈ ahead, m.goesTo place = false) : t.keyMarksAhead place = ahead := by
  unfold Table.keyMarksAhead
  rw [hsplit, List.takeWhile_append_of_pos fun m hm => by simp [hahead m hm],
    List.takeWhile_cons_of_neg (by simp [hfirst]), List.append_nil]

-- ============================================= the key in front of a row

/-- The places in front of one. -/
theorem mem_take_zipIdx {t : Table} {p : PlacedRow} {place : Nat} :
    p ∈ t.zipIdx.take place ↔ p ∈ t.zipIdx ∧ p.2 < place := by
  constructor
  · intro hp
    obtain ⟨i, hi⟩ := List.mem_iff_getElem?.1 hp
    rw [List.getElem?_take] at hi
    split at hi
    · next hlt =>
      have hplace : p.2 = i := by
        rw [List.getElem?_zipIdx] at hi
        obtain ⟨r, -, rfl⟩ := Option.map_eq_some_iff.1 hi
        exact Nat.zero_add i
      exact ⟨List.mem_of_getElem? hi, hplace ▸ hlt⟩
    · cases hi
  · rintro ⟨hp, hlt⟩
    refine List.mem_iff_getElem?.2 ⟨p.2, ?_⟩
    rw [List.getElem?_take, if_pos hlt, List.getElem?_zipIdx, List.mem_zipIdx_iff_getElem?.1 hp]
    simp

/-- The reader goes by the last signature that goes to a place. -/
theorem keyBefore_withKeys {t : Table} (hplain : t.Keyless) (place : Nat) :
    t.withKeys.keyBefore place
      = (t.withKeys.zipIdx.take place).foldl
          (fun key p => ((t.keyMarks.reverse.find? fun m => m.goesTo p.2).map (·.key)).getD key)
          ((t.withKeys.field? "K").getD "") := by
  have hrows : t.withKeys.take place = (t.withKeys.zipIdx.take place).map (·.1) := by
    rw [List.map_take, List.zipIdx_map_fst]
  unfold Table.keyBefore
  rw [hrows, List.foldl_filter, List.foldl_map]
  refine List.foldl_ext _ _ _ fun key p hp => ?_
  have hp := (mem_take_zipIdx.1 hp).1
  by_cases hlyric : p.1.source = .lyric
  · rw [if_pos (decide_eq_true hlyric), key_withKeys hplain hp hlyric]
  · -- no signature goes to another row
    have hnone : (t.keyMarks.reverse.find? fun m => m.goesTo p.2) = none := by
      refine List.find?_eq_none.2 fun m hm hgoes => ?_
      obtain ⟨r, hr, hsource⟩ := row_withKeys_of_goesTo (List.mem_reverse.1 hm) hgoes
      exact hlyric (eq_of_mem_zipIdx hr hp ▸ hsource)
    rw [if_neg (by simpa using hlyric), hnone]
    rfl

/-- The reader is in the key of the last place that a signature goes to. -/
theorem keyBefore_of_last {t : Table} (hplain : t.Keyless) {place j : Nat} (hlt : j < place)
    {m : KeyMark} (hfind : t.keyMarks.reverse.find? (fun m => m.goesTo j) = some m)
    (hlast : ∀ other ∈ t.keyMarks, ∀ i, other.goesTo i = true → i < place → i ≤ j) :
    t.withKeys.keyBefore place = m.key := by
  have hm := List.mem_reverse.1 (List.mem_of_find?_eq_some hfind)
  have hgoes : m.goesTo j = true := List.find?_some (p := fun m : KeyMark => m.goesTo j) hfind
  obtain ⟨r, hr, -⟩ := row_withKeys_of_goesTo hm hgoes
  rw [keyBefore_withKeys hplain]
  refine foldl_getD_of_place ((pairwise_place t.withKeys).sublist (List.take_sublist _ _))
    (mem_take_zipIdx.2 ⟨hr, hlt⟩) ?_ (fun q hq hbehind => ?_) _
  · rw [hfind]
    rfl
  · cases hother : t.keyMarks.reverse.find? fun m => m.goesTo q.2 with
    | none => rfl
    | some other =>
        have hle := hlast other (List.mem_reverse.1 (List.mem_of_find?_eq_some hother)) q.2
          (List.find?_some (p := fun m : KeyMark => m.goesTo q.2) hother) (mem_take_zipIdx.1 hq).2
        omega

/-- In front of all signatures the reader is in the key of the heading. -/
theorem keyBefore_of_quiet {t : Table} (hplain : t.Keyless) {place : Nat}
    (hquiet : ∀ m ∈ t.keyMarks, ∀ i, m.goesTo i = true → place ≤ i) :
    t.withKeys.keyBefore place = (t.withKeys.field? "K").getD "" := by
  rw [keyBefore_withKeys hplain]
  refine foldl_getD_of_none (fun q hq => ?_) _
  rw [Option.map_eq_none_iff]
  refine List.find?_eq_none.2 fun m hm hgoes => ?_
  have hle := hquiet m (List.mem_reverse.1 hm) q.2 hgoes
  have hlt := (mem_take_zipIdx.1 hq).2
  omega

namespace Table.Measured

variable {t : Table} {place : Nat} {first : KeyMark} {ahead rest : List KeyMark}

/-- As long as the last change of key is not announced, nothing is, and it is that of the heading. -/
theorem headingKey_of_quiet (h : t.Measured) (hsplit : t.keyMarks = ahead ++ first :: rest)
    (hfirst : first.goesTo place = true)
    (hlast : ∀ q, KeyMark.lastChange? ahead = some q → ∀ i, q.goesTo i = false) :
    (∀ m ∈ ahead, ∀ i, m.goesTo i = false)
      ∧ Keys.headingKey t.keyMarks = ((KeyMark.lastChange? ahead).map (·.key)).getD defaultKey := by
  have hpairs := h.seen_keyMarks.before
  rw [hsplit] at hpairs
  obtain ⟨hahead, hrest, -⟩ := List.pairwise_append.1 hpairs
  -- neither a signature that is announced nor one behind others is the heading
  have hnone : (first :: rest).find? (fun m => m.effect == .heading) = none := by
    refine List.find?_eq_none.2 fun m hm hyes => ?_
    have hheading := eq_of_beq hyes
    rcases List.mem_cons.1 hm with rfl | hm
    · rcases goesTo_eq_true.1 hfirst with heffect | heffect
      · rw [hheading] at heffect
        cases heffect
      · rw [hheading] at heffect
        cases heffect
    · exact ((List.pairwise_cons.1 hrest).1 m hm).heading hheading
  have hsame : Keys.headingKey t.keyMarks = Keys.headingKey ahead := by
    unfold Keys.headingKey
    rw [hsplit, List.find?_append, hnone, Option.or_none]
  rw [hsame]
  exact quiet_of_lastChange hahead hlast

/-- In step, signatures in their order go to places in their order, if one of them goes to the place
or the second is the last change in front of it. -/
theorem place_le_of_inStep (h : t.Measured) (hstep : t.outOfStep place = false) {m m' : KeyMark}
    (hm : m ∈ t.keyMarks) (hm' : m' ∈ t.keyMarks) (hbefore : m.Before m')
    (hmeets : m.goesTo place = true ∨ m'.goesTo place = true
      ∨ KeyMark.lastChange? (t.keyMarksAhead place) = some m')
    {i j : Nat} (hi : m.goesTo i = true) (hj : m'.goesTo j = true) : i ≤ j := by
  rcases h.place_le hm hm' hbefore hi hj with hle | hover
  · exact hle
  · rw [not_overtakes_of_inStep hstep hm hm' hmeets] at hover
    cases hover

/-- What is read from the first signature of a place in step on goes to no place in front of it. -/
theorem place_le_of_rest (h : t.Measured) (hsplit : t.keyMarks = ahead ++ first :: rest)
    (hfirst : first.goesTo place = true) (hstep : t.outOfStep place = false) :
    ∀ m ∈ first :: rest, ∀ i, m.goesTo i = true → place ≤ i := by
  have hmem : ∀ m ∈ first :: rest, m ∈ t.keyMarks := fun m hm =>
    hsplit ▸ List.mem_append_right _ hm
  have hpairs := h.seen_keyMarks.before
  rw [hsplit] at hpairs
  intro m hm i hi
  rcases List.mem_cons.1 hm with rfl | hrest
  · exact Nat.le_of_eq (goesTo_inj hfirst hi)
  · exact h.place_le_of_inStep hstep (hmem first List.mem_cons_self) (hmem m hm)
      ((List.pairwise_cons.1 (List.pairwise_append.1 hpairs).2.1).1 m hrest) (Or.inl hfirst) hfirst hi

/-- In front of a row in step the reader is in the key of the last change, if that is announced. -/
theorem keyBefore_of_lastChange (h : t.Measured) (hplain : t.Keyless)
    (hsplit : t.keyMarks = ahead ++ first :: rest) (hfirst : first.goesTo place = true)
    (hahead : ∀ m ∈ ahead, m.goesTo place = false) (hstep : t.outOfStep place = false) {q : KeyMark}
    {j : Nat} (hlast : KeyMark.lastChange? ahead = some q) (hj : q.goesTo j = true) :
    t.withKeys.keyBefore place = q.key := by
  have hmarked : KeyMark.lastChange? (t.keyMarksAhead place) = some q := by
    rw [keyMarksAhead_eq hsplit hfirst hahead, hlast]
  obtain ⟨-, earlier, later, rfl, hlater⟩ := lastChange?_eq_some hlast
  have hq : q ∈ earlier ++ q :: later := List.mem_append_right _ List.mem_cons_self
  have hmem : ∀ m ∈ earlier ++ q :: later, m ∈ t.keyMarks := fun m hm =>
    hsplit ▸ List.mem_append_left _ hm
  have hpairs := h.seen_keyMarks.before
  rw [hsplit] at hpairs
  obtain ⟨hpairs, -, hcross⟩ := List.pairwise_append.1 hpairs
  have hrest := h.place_le_of_rest hsplit hfirst hstep
  have hlt : j < place := by
    have hne : j ≠ place := by
      rintro rfl
      rw [hahead q hq] at hj
      cases hj
    have hle : j ≤ place := h.place_le_of_inStep hstep (hmem q hq)
      (hsplit ▸ List.mem_append_right _ List.mem_cons_self) (hcross q hq first List.mem_cons_self)
      (Or.inr (Or.inl hfirst)) hj hfirst
    omega
  refine keyBefore_of_last hplain hlt ?_ fun other hother i hi hbefore => ?_
  · rw [hsplit, List.append_assoc, List.cons_append]
    refine find?_goesTo_last hj fun m hm => ?_
    rcases List.mem_append.1 hm with hm | hm
    · exact goesTo_of_not_changesKey (hlater m hm) j
    · apply Bool.eq_false_iff.2
      intro hgoes
      have hle := hrest m hm j hgoes
      omega
  · rw [hsplit] at hother
    rcases List.mem_append.1 hother with hother | hother
    · rcases goesTo_lastChange hlater hother hi with rfl | hearlier
      · exact Nat.le_of_eq (goesTo_inj hi hj)
      · exact h.place_le_of_inStep hstep (hmem other hother) (hmem q hq)
          ((List.pairwise_append.1 hpairs).2.2 other hearlier q List.mem_cons_self)
          (Or.inr (Or.inr hmarked)) hi hj
    · have hle := hrest other hother i hi
      omega

/-- In front of a row in step the reader is in the key that is in force in front of the first
signature that goes there. -/
theorem keyBefore_eq (h : t.Measured) (hplain : t.Keyless)
    (hfield : t.withKeys.field? "K" = some (Keys.headingKey t.keyMarks))
    (hsplit : t.keyMarks = ahead ++ first :: rest) (hfirst : first.goesTo place = true)
    (hahead : ∀ m ∈ ahead, m.goesTo place = false) (hstep : t.outOfStep place = false) :
    t.withKeys.keyBefore place = KeyMark.lastKey ahead := by
  obtain ⟨s, before, p, hseen, -⟩ := h.seen_ahead hsplit
  rw [hseen.kept.symm.trans hseen.changed]
  by_cases hannounced : ∃ q j, KeyMark.lastChange? ahead = some q ∧ q.goesTo j = true
  · obtain ⟨q, j, hlast, hj⟩ := hannounced
    rw [hlast, Option.map_some, Option.getD_some]
    exact h.keyBefore_of_lastChange hplain hsplit hfirst hahead hstep hlast hj
  · obtain ⟨hquiet, hheading⟩ := h.headingKey_of_quiet hsplit hfirst fun q hlast i =>
      Bool.eq_false_iff.2 fun hi => hannounced ⟨q, i, hlast, hi⟩
    rw [keyBefore_of_quiet hplain, hfield, Option.getD_some, hheading]
    intro m hm i hi
    rw [hsplit] at hm
    rcases List.mem_append.1 hm with hm | hm
    · rw [hquiet m hm i] at hi
      cases hi
    · exact h.place_le_of_rest hsplit hfirst hstep m hm i hi

end Table.Measured

-- ============================================================== runs

/-- The keys of a table as a reader meets them. -/
structure Table.KeysTold (t : Table) : Prop where
  /-- The texts of a lyric row name the key that it brings. -/
  written : ∀ r ∈ t.withKeys, r.source = .lyric → r.writtenKeys = r.key.toList
  /-- The changes are as many as the rows that bring a key, and the signatures that are written
  over. -/
  counted : (Stage.keyFigures t.keyMarks).lookup "changes"
    = some (.count (t.withKeys.keyPlaces.length + (KeyMark.overwritten t.keyMarks).length))
  /-- Signatures are written over at barlines only. -/
  atBarline : ∀ m ∈ KeyMark.overwritten t.keyMarks, ∃ place, m.effect = .atBarline place
  /-- A key in step says nothing new only where a signature is written over, and the last one goes
  back to the key in front of them. -/
  redundant : ∀ place r key, (r, place) ∈ t.withKeys.zipIdx → r.source = .lyric → r.key = some key →
    t.outOfStep place = false →
    (t.withKeys.keyBefore place = key
      ↔ (∃ m ∈ KeyMark.overwritten t.keyMarks, m.goesTo place = true)
        ∧ KeyMark.lastKey (t.keyMarksAhead place) = key)

namespace Table.Measured

variable {t : Table}

/-- Of the signatures that meet, none goes to a note. -/
theorem atBarline_of_overwritten (h : t.Measured) {m : KeyMark}
    (hm : m ∈ KeyMark.overwritten t.keyMarks) : ∃ place, m.effect = .atBarline place := by
  obtain ⟨ahead, rest, place, hsplit, hgoes, m', hm', hgoes'⟩ := mem_overwritten.1 hm
  rcases goesTo_eq_true.1 hgoes with hnote | hbar
  · exfalso
    have hmem : m ∈ t.keyMarks := by
      rw [hsplit]
      exact List.mem_append_right _ List.mem_cons_self
    have hmem' : m' ∈ t.keyMarks := by
      rw [hsplit]
      exact List.mem_append_right _ (List.mem_cons_of_mem _ hm')
    rcases goesTo_eq_true.1 hgoes' with hnote' | hbar'
    · have hpair := h.pairwise_atNote
      rw [hsplit] at hpair
      exact (List.pairwise_cons.1 (List.pairwise_append.1 hpair).2.1).1 m' hm' place hnote hnote'
    · -- a barline is no note
      obtain ⟨r, hr, -, -, -, htimed⟩ := row_of_goesTo hmem hgoes
      obtain ⟨r', hr', -, -, hsilent, -⟩ := row_of_goesTo hmem' hgoes'
      have hrhythm := htimed hnote
      rw [eq_of_mem_zipIdx hr hr', hsilent hbar'] at hrhythm
      cases hrhythm
  · exact ⟨place, hbar⟩

theorem keyBefore_eq_iff (h : t.Measured) (hplain : t.Keyless)
    (hfield : t.withKeys.field? "K" = some (Keys.headingKey t.keyMarks)) {place : Nat} {r : Row}
    {key : String} (hr : (r, place) ∈ t.withKeys.zipIdx) (hlyric : r.source = .lyric)
    (hkey : r.key = some key) (hstep : t.outOfStep place = false) :
    t.withKeys.keyBefore place = key
      ↔ (∃ m ∈ KeyMark.overwritten t.keyMarks, m.goesTo place = true)
        ∧ KeyMark.lastKey (t.keyMarksAhead place) = key := by
  rw [key_withKeys hplain hr hlyric] at hkey
  obtain ⟨last, hlast, hlastKey⟩ := Option.map_eq_some_iff.1 hkey
  obtain ⟨first, hfind⟩ : ∃ first, t.keyMarks.find? (fun m => m.goesTo place) = some first := by
    refine Option.isSome_iff_exists.1 (List.find?_isSome.2 ⟨last, ?_, ?_⟩)
    · exact List.mem_reverse.1 (List.mem_of_find?_eq_some hlast)
    · exact List.find?_some (p := fun m : KeyMark => m.goesTo place) hlast
  obtain ⟨hfirst, ahead, rest, hsplit, hnot⟩ := List.find?_eq_some_iff_append.1 hfind
  have hahead : ∀ m ∈ ahead, m.goesTo place = false := fun m hm => by simpa using hnot m hm
  rw [h.keyBefore_eq hplain hfield hsplit hfirst hahead hstep, keyMarksAhead_eq hsplit hfirst hahead]
  refine ⟨fun hsame => ⟨?_, hsame⟩, fun hboth => hboth.2⟩
  by_cases hlater : ∃ m' ∈ rest, m'.goesTo place = true
  · exact ⟨first, mem_overwritten.2 ⟨ahead, rest, place, hsplit, hfirst, hlater⟩, hfirst⟩
  · -- the first signature of the place is the last one as well
    exfalso
    have honly : ∀ m' ∈ rest, m'.goesTo place = false := fun m' hm' =>
      Bool.eq_false_iff.2 fun hgoes => hlater ⟨m', hm', hgoes⟩
    rw [hsplit, find?_goesTo_last hfirst honly] at hlast
    obtain rfl := Option.some.inj hlast
    exact h.key_ne_lastKey hsplit hfirst (hlastKey.trans hsame.symm)

end Table.Measured

theorem Table.Prepared.keysTold {heading : Rat} {meter : String} {t : Table}
    (h : t.Prepared heading meter)
    (hfield : t.withKeys.field? "K" = some (Keys.headingKey t.keyMarks)) : t.KeysTold where
  written _ hr hlyric := h.writtenKeys_eq hr hlyric
  counted := by rw [lookup_changes, length_places, length_keyPlaces_withKeys h.keyless]
  atBarline _ hm := h.measured.atBarline_of_overwritten hm
  redundant _ _ _ hr hlyric hkey hstep :=
    h.measured.keyBefore_eq_iff h.keyless hfield hr hlyric hkey hstep

/-- Keys that say nothing new. For every text that runs to its end, behind the keys: the texts of the
lyric rows name the keys that they bring; the changes reported are as many as the rows that bring a
key and the signatures written over, which are at barlines; and a row in step brings the key that is
in force in front of it exactly where a barline took several signatures, and the last of them goes
back to the key in front of the first. -/
theorem keysTold_of_run {text : String} {title : Option String} {fold : Bool} {result : Result}
    (h : run (.text text) { title := title, fold := fold } = .ok result) :
    ∃ s t, Score.parse text = .ok s ∧ s.behind .meters { title := title, fold := fold } = .ok t
      ∧ s.behind .keys { title := title, fold := fold } = .ok t.withKeys
      ∧ result.figures.lookup Stage.keys.name = some (Stage.keyFigures t.keyMarks)
      ∧ t.KeysTold := by
  obtain ⟨s, c, hparse, hcompletes, -, hfigures⟩ := completes_of_run h
  have hall : Completes (.start { title := title, fold := fold } (.ofScore s)) []
      (stagesToMeters ++ .keys :: [.notes, .ties, .assembly]) c result.table := hcompletes
  obtain ⟨next, t, hmeters, hrest⟩ := hall.append
  have hbehind : s.behind .meters { title := title, fold := fold } = .ok t :=
    Score.behind_eq_ok.2 ⟨next, hmeters⟩
  obtain ⟨⟨heading, meter, hprepared⟩, -⟩ := Score.prepared_behind hbehind
  have hfield : t.withKeys.field? "K" = some (Keys.headingKey t.keyMarks) := by
    rw [(hprepared.drafted.of_unmarked (map_unmarked_withKeys t)).field?]
    exact hprepared.lookup_withKeys.2.2
  refine ⟨s, t, hparse, hbehind, Score.behind_keys hbehind, ?_, hprepared.keysTold hfield⟩
  cases hrest with
  | step hkeys hrest =>
      obtain ⟨rfl, -⟩ := Prod.mk.inj (Except.ok.inj hkeys)
      rw [hfigures, hrest.lookup_figures (by decide)]
      exact (Context.lookup_record _ _ _ _).trans (if_pos rfl)

/-- Two barlines that take two signatures each, the first of them back to the key of the heading. -/
def returningText : String :=
  "la | la | la\nK&1 c | K#1 K&1 d | K#1 K#2 e\n\nla\nK0 e"

/-- The table of the text behind the meters, where the text is run as well, with its keys. -/
def returningTable : {t // ((run (.text returningText) { title := none, fold := true }).bind fun _ =>
      (Score.parse returningText).bind fun s => s.behind .meters { title := none, fold := true })
      = .ok t
    ∧ t.withKeys.keyPlaces = [6, 8, 20] ∧ (KeyMark.overwritten t.keyMarks).length = 2
    ∧ t.withKeys.keyPlaces.map t.outOfStep = [false, false, false]} :=
  checked (by decide +kernel)

theorem keysTold_of_run_returningText :
    ∃ result s t, run (.text returningText) { title := none, fold := true } = .ok result
      ∧ Score.parse returningText = .ok s
      ∧ s.behind .meters { title := none, fold := true } = .ok t
      ∧ result.figures.lookup Stage.keys.name = some (Stage.keyFigures t.keyMarks)
      ∧ t.withKeys.keyPlaces = [6, 8, 20] ∧ (KeyMark.overwritten t.keyMarks).length = 2
      ∧ t.withKeys.keyPlaces.map t.outOfStep = [false, false, false] ∧ t.KeysTold := by
  obtain ⟨t', hread, hplaces, hover, hstep⟩ := returningTable
  obtain ⟨result, hrun, hread⟩ := bind_eq_ok.1 hread
  obtain ⟨s, t, hparse, ht, -, hfigures, htold⟩ := keysTold_of_run hrun
  rw [hparse, Except.bind, ht] at hread
  obtain rfl := Except.ok.inj hread
  exact ⟨result, s, t, hrun, hparse, ht, hfigures, hplaces, hover, hstep, htold⟩

/-- A barline that takes two signatures, and a block that repeats the key of a signature that
overtook another one. -/
def redundantText : String :=
  "la | la\nc | K#1 K0 d\n\n| la\nK#1 | K#2 d\n\nla\nK#1 e"

/-- The table of the text behind the meters, with its keys. -/
def redundantTable : {t // ((Score.parse redundantText).bind fun s => s.behind .meters {}) = .ok t
    ∧ t.withKeys.keyPlaces = [6, 13, 14, 19] ∧ (t.keyMarks.filterMap KeyMark.place?).length = 5
    ∧ t.withKeys.keyBefore 6 = "C major" ∧ t.withKeys[6]?.bind Row.key = some "C major"
    ∧ t.withKeys.keyBefore 19 = "G major" ∧ t.withKeys[19]?.bind Row.key = some "G major"} :=
  checked (by decide +kernel)

/-- Four rows bring a key and five changes are counted. The first row brings the key that is in force
in front of it, and so does the last. -/
theorem keys_told_again :
    ∃ s t, Score.parse redundantText = .ok s ∧ s.behind .meters {} = .ok t
      ∧ s.behind .keys {} = .ok t.withKeys ∧ t.withKeys.keyPlaces = [6, 13, 14, 19]
      ∧ (Stage.keyFigures t.keyMarks).lookup "changes" = some (.count 5)
      ∧ t.withKeys.keyBefore 6 = "C major" ∧ t.withKeys[6]?.bind Row.key = some "C major"
      ∧ t.withKeys.keyBefore 19 = "G major" ∧ t.withKeys[19]?.bind Row.key = some "G major" := by
  obtain ⟨t, hread, hplaces, hchanges, hkeys⟩ := redundantTable
  obtain ⟨s, hparse, ht⟩ := bind_eq_ok.1 hread
  refine ⟨s, t, hparse, ht, Score.behind_keys ht, hplaces, ?_, hkeys⟩
  rw [lookup_changes, hchanges]

end LyricScore
