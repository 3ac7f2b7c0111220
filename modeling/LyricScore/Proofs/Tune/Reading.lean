/-
Reading a table. Of the lyric rows only those that are heard write anything, and of the rows of a
beat only the first. So what a table writes is read phrase by phrase: for a beat the directive of
its first row and its text, for a barline its stroke and its key. `final` gives the texts that
were set for some places; the other rows keep their drafts.
-/
import LyricScore.Proofs.Table.Scored

namespace LyricScore

open Text

-- ============================================================ tokens

/-- The tokens of a text, none if it cannot be read. -/
def lexed (text : String) : List Token :=
  (tokens text.toList).getD []

theorem Reads.lexed_eq {text : String} {ts : List Token} (h : Reads text ts) : lexed text = ts := by
  unfold lexed
  rw [h.tokens_eq]
  rfl

theorem mapM_eq_some {α β : Type} {f : α → Option β} {g : α → β} {l : List α}
    (h : ∀ a ∈ l, f a = some (g a)) : l.mapM f = some (l.map g) := by
  induction l with
  | nil => rfl
  | cons a l ih =>
      obtain ⟨ha, hl⟩ := List.forall_mem_cons.1 h
      rw [List.mapM_cons, ha, ih hl]
      rfl

/-- A table whose lyric rows can be read. -/
theorem tokens?_eq_some {t : Table}
    (h : ∀ r ∈ t, r.source = .lyric →
      (∃ ts, Reads r.directive ts) ∧ ∃ ts, Reads (r.finalText.getD "") ts) :
    t.tokens? = some ((t.filter fun r => decide (r.source = .lyric)).flatMap fun r =>
      lexed r.directive ++ lexed (r.finalText.getD "")) := by
  have htexts : ∀ text ∈ (t.filter fun r => decide (r.source = .lyric)).flatMap Row.written,
      tokens text.toList = some (lexed text) := by
    intro text htext
    obtain ⟨r, hr, htext⟩ := List.mem_flatMap.1 htext
    obtain ⟨hr, hsource⟩ := List.mem_filter.1 hr
    obtain ⟨⟨ds, hds⟩, ts, hts⟩ := h r hr (of_decide_eq_true hsource)
    rcases List.mem_cons.1 htext with rfl | htext
    · rw [hds.lexed_eq, hds.tokens_eq]
    · obtain rfl := List.mem_singleton.1 htext
      rw [hts.lexed_eq, hts.tokens_eq]
  unfold Table.tokens?
  rw [mapM_eq_some htexts, Option.map_some]
  congr 1
  generalize t.filter (fun r => decide (r.source = .lyric)) = rows
  induction rows with
  | nil => rfl
  | cons r rows ih =>
      rw [List.flatMap_cons, List.map_append, List.flatten_append, ih, List.flatMap_cons]
      simp [Row.written]

-- =========================================================== phrases

/-- The first row of a stretch. -/
def Stretch.front : Stretch BeatKey PlacedRow → PlacedRow
  | .group _ first _ => first
  | .single p => p

/-- The text of a row: the one that is set for its place, or else its draft. -/
def textOf (final : Nat → Option String) (p : PlacedRow) : String :=
  (final p.2).getD (p.1.draftText.getD "")

/-- What a phrase writes. -/
def Stretch.script (final : Nat → Option String) (s : Stretch BeatKey PlacedRow) : List Token :=
  lexed s.front.1.directive ++ lexed (textOf final s.front)

-- ============================================================== rest

theorem flatMap_phrases (t : Table) : t.phrases.flatMap Stretch.members = t.spoken :=
  members_stretches _ _

/-- The phrases of a table from some place on, with what links their rows. -/
structure Table.Rest (t : Table) (R : Option Row → Row → Prop) (previous : Option Row)
    (ss : List (Stretch BeatKey PlacedRow)) : Prop where
  phrases : ∀ s ∈ ss, s ∈ t.phrases
  spoken : (ss.flatMap Stretch.members).Sublist t.spoken
  linked : Linked Row.isRhythm R previous ((ss.flatMap Stretch.members).map (·.1))

namespace Table.Rest

variable {t : Table} {R : Option Row → Row → Prop} {previous : Option Row}
  {ss : List (Stretch BeatKey PlacedRow)}

theorem start (h : Linked Row.isRhythm R none t) : t.Rest R none t.phrases := by
  refine ⟨fun s hs => hs, ?_, ?_⟩
  · simp only [flatMap_phrases, List.Sublist.refl]
  · rw [flatMap_phrases, linked_spoken_iff]
    exact h

/-- A phrase that no beat holds is a barline. -/
theorem single (hlaid : t.Laid) {p : PlacedRow} (h : t.Rest R previous (.single p :: ss)) :
    p ∈ t.zipIdx ∧ p.1.isRhythm = false ∧ Keys.isLyricBarline p.1 = true
      ∧ t.Rest R previous ss := by
  have hphrase := h.phrases _ List.mem_cons_self
  have hspoken := h.spoken.subset (List.mem_append_left _ (List.mem_singleton.2 rfl))
  obtain ⟨hmem, hheard⟩ := List.mem_filter.1 hspoken
  have hrhythm : p.1.isRhythm = false := by
    refine Bool.eq_false_iff.2 fun hrhythm => ?_
    obtain ⟨k, hk⟩ := (hlaid.placed p.1 (List.fst_mem_of_mem_zipIdx hmem)).beatKey? hrhythm
    have hnone : p.1.beatKey? = none := hasKey_of_mem_stretches _ hphrase
    rw [hk] at hnone
    cases hnone
  refine ⟨hmem, hrhythm, ?_, fun s hs => h.phrases s (List.mem_cons_of_mem _ hs),
    (List.sublist_append_right _ _).trans h.spoken, ?_⟩
  · rwa [Row.isSpoken, hrhythm, Bool.false_or] at hheard
  · have hlinked := h.linked
    rwa [List.flatMap_cons, List.map_append, Stretch.members, List.map_cons, List.map_nil,
      List.singleton_append, Linked.cons_of_neg hrhythm] at hlinked

/-- A beat, and what comes behind one of its rows. -/
theorem group {k : BeatKey} {first : PlacedRow} {others : List PlacedRow}
    (h : t.Rest R previous (.group k first others :: ss)) :
    (∀ p ∈ first :: others, p.1.beatKey? = some k) ∧ R previous first.1
      ∧ (∀ p ∈ others, ∃ c ∈ first :: others, R (some c.1) p.1)
      ∧ ∃ c ∈ first :: others, t.Rest R (some c.1) ss
        ∧ (c :: ss.flatMap Stretch.members).Sublist t.spoken := by
  have hkeys : ∀ p ∈ first :: others, p.1.beatKey? = some k :=
    hasKey_of_mem_stretches _ (h.phrases _ List.mem_cons_self)
  have hlinked := h.linked
  rw [List.flatMap_cons, List.map_append] at hlinked
  obtain ⟨hfirst, hlater, r, hr, hrest⟩ := Linked.split (l := others.map (·.1)) (fun r hr => by
    obtain ⟨p, hp, rfl⟩ := List.mem_map.1 (show r ∈ (first :: others).map (·.1) from hr)
    exact (beatKey?_eq_some.1 (hkeys p hp)).1) hlinked
  obtain ⟨c, hc, rfl⟩ := List.mem_map.1 (show r ∈ (first :: others).map (·.1) from hr)
  have hbehind : (c :: ss.flatMap Stretch.members).Sublist t.spoken :=
    ((List.singleton_sublist.2 hc).append (List.Sublist.refl _)).trans h.spoken
  refine ⟨hkeys, hfirst, fun p hp => ?_, c, hc,
    ⟨fun s hs => h.phrases s (List.mem_cons_of_mem _ hs),
      (List.sublist_cons_self _ _).trans hbehind, hrest⟩, hbehind⟩
  obtain ⟨r, hr, hR⟩ := hlater p.1 (List.mem_map_of_mem hp)
  obtain ⟨q, hq, rfl⟩ := List.mem_map.1 (show r ∈ (first :: others).map (·.1) from hr)
  exact ⟨q, hq, hR⟩

/-- A phrase with what links its rows, and the phrases behind it. -/
theorem behind {s : Stretch BeatKey PlacedRow} (h : t.Rest R previous (s :: ss)) :
    Linked Row.isRhythm R previous (s.members.map (·.1))
      ∧ t.Rest R (((s.members.map (·.1)).reverse.find? Row.isRhythm).or previous) ss := by
  have hlinked := h.linked
  rw [List.flatMap_cons, List.map_append, Linked.append_iff] at hlinked
  refine ⟨hlinked.1, fun s hs => h.phrases s (List.mem_cons_of_mem _ hs), ?_, hlinked.2⟩
  exact (List.sublist_append_right _ _).trans h.spoken

/-- Every phrase starts a rest of the table. -/
theorem of_mem (h : Linked Row.isRhythm R none t) {s : Stretch BeatKey PlacedRow}
    (hs : s ∈ t.phrases) : ∃ previous ss, t.Rest R previous (s :: ss) := by
  obtain ⟨before, after, hsplit⟩ := List.append_of_mem hs
  have hlinked := (start h).linked
  have hspoken := (start h).spoken
  rw [hsplit, List.flatMap_append] at hlinked hspoken
  rw [List.map_append, ← List.append_nil (List.map _ (List.flatMap _ (s :: after))),
    ← List.append_assoc] at hlinked
  obtain ⟨previous, hpart⟩ := hlinked.part
  refine ⟨previous, after, fun s' hs' => ?_, (List.sublist_append_right _ _).trans hspoken, hpart⟩
  rw [hsplit]
  exact List.mem_append_right _ hs'

end Table.Rest

/-- Texts that are set for beats only and can be read. -/
def Table.Settable (t : Table) (final : Nat → Option String) : Prop :=
  ∀ place text, final place = some text → (∃ g ∈ t.beats, g.first.2 = place) ∧ ∃ ts, Reads text ts

/-- No text is set for a row that does not open a beat. -/
theorem Table.Settable.final_eq_none {t : Table} {final : Nat → Option String}
    (hset : t.Settable final) {p : PlacedRow} (hp : p ∈ t.zipIdx)
    (hnot : ∀ g ∈ t.beats, g.first ≠ p) : final p.2 = none := by
  cases hfinal : final p.2 with
  | none => rfl
  | some text =>
      obtain ⟨⟨g, hg, hplace⟩, -⟩ := hset p.2 text hfinal
      have hfirst := (Table.mem_beat hg List.mem_cons_self).1
      rw [show g.first = (g.first.1, p.2) from Prod.ext rfl hplace] at hfirst
      exact absurd (Prod.ext (eq_of_mem_zipIdx hfirst hp) hplace) (hnot g hg)

namespace Table.Scored

variable {heading : Rat} {key : String} {t : Table}

/-- Inside a beat no row announces anything. -/
theorem reads_others (h : t.Scored heading key) {k : BeatKey} {first : PlacedRow}
    {others : List PlacedRow} (hs : .group k first others ∈ t.phrases) :
    ∀ p ∈ others, Reads p.1.directive [] := by
  obtain ⟨previous, ss, hrest⟩ := Rest.of_mem h.led hs
  obtain ⟨hkeys, -, hlater, -⟩ := hrest.group
  intro p hp
  obtain ⟨c, hc, hled⟩ := hlater p hp
  have hmeasure : c.1.measureKey? = p.1.measureKey? :=
    (measureKey?_of_beatKey? (hkeys c hc)).trans
      (measureKey?_of_beatKey? (hkeys p (List.mem_cons_of_mem _ hp))).symm
  have hread := hled.directive
  rwa [hled.within c.1 rfl hmeasure] at hread

/-- A row that takes time stands in a beat. -/
theorem exists_beat (h : t.Scored heading key) {p : PlacedRow} (hp : p ∈ t.zipIdx)
    (hrhythm : p.1.isRhythm = true) :
    ∃ k first others, .group k first others ∈ t.phrases ∧ p ∈ first :: others := by
  have hspoken : p ∈ t.spoken := List.mem_filter.2 ⟨hp, isSpoken_of_isRhythm hrhythm⟩
  rw [← flatMap_phrases] at hspoken
  obtain ⟨s, hs, hmem⟩ := List.mem_flatMap.1 hspoken
  cases s with
  | group k first others => exact ⟨k, first, others, hs, hmem⟩
  | single q =>
      obtain rfl := List.mem_singleton.1 hmem
      obtain ⟨k, hk⟩ := (h.laid.placed p.1 (List.fst_mem_of_mem_zipIdx hp)).beatKey? hrhythm
      have hnone : p.1.beatKey? = none := hasKey_of_mem_stretches _ hs
      rw [hk] at hnone
      cases hnone

theorem beat_of_phrase (h : t.Scored heading key) {k : BeatKey} {first : PlacedRow}
    {others : List PlacedRow} (hs : .group k first others ∈ t.phrases) :
    (⟨k, first, others⟩ : BeatGroup) ∈ t.beats := by
  rw [h.laid.beats_eq]
  exact List.mem_filterMap.2 ⟨_, hs, rfl⟩

theorem tuned_of_mem (h : t.Scored heading key) {g : BeatGroup} (hg : g ∈ t.beats)
    {p : PlacedRow} (hp : p ∈ g.members) : p.1.Tuned := by
  obtain ⟨hmem, hrhythm⟩ := Table.isRhythm_of_mem_beat hg hp
  simp only [Row.isRhythm, Bool.and_eq_true, beq_iff_eq] at hrhythm
  exact h.tuned p.1 hmem hrhythm.1

/-- A beat lasts, so its rows have a length. -/
theorem length_pos (h : t.Scored heading key) {g : BeatGroup} (hg : g ∈ t.beats) :
    0 < g.length := by
  obtain ⟨hmem, hrhythm⟩ := Table.isRhythm_of_mem_beat hg List.mem_cons_self
  obtain ⟨-, -, duration, -, -, -, hduration, hone⟩ := (h.laid.placed g.first.1 hmem).rhythm hrhythm
  refine splitLength_pos g.count g.unit (Row.effectiveDuration_pos fun d hd => ?_)
  obtain rfl := Option.some.inj (hduration.symm.trans hd)
  grind

theorem reads_fragment (h : t.Scored heading key) {g : BeatGroup} (hg : g ∈ t.beats) :
    Reads g.fragment g.script :=
  BeatGroup.reads_fragment (Table.pairwise_members hg) (fun _ hp => h.tuned_of_mem hg hp)
    (h.length_pos hg)

/-- A row that is not heard writes nothing. -/
theorem unheard_script (h : t.Scored heading key) {final : Nat → Option String}
    (hset : t.Settable final) {p : PlacedRow} (hp : p ∈ t.zipIdx) (hsource : p.1.source = .lyric)
    (hspoken : p.1.isSpoken = false) : p.1.directive = "" ∧ textOf final p = "" := by
  obtain ⟨hdirective, -, hdraft⟩ :=
    h.unheard p.1 (List.fst_mem_of_mem_zipIdx hp) hsource hspoken
  have hnone : final p.2 = none := by
    refine hset.final_eq_none hp ?_
    rintro g hg rfl
    have hrhythm := (Table.isRhythm_of_mem_beat hg List.mem_cons_self).2
    rw [isSpoken_of_isRhythm hrhythm] at hspoken
    cases hspoken
  refine ⟨hdirective, ?_⟩
  unfold textOf
  rw [hnone, hdraft]
  rfl

/-- The rows of a beat behind the first write nothing. -/
theorem textOf_others (h : t.Scored heading key) {final : Nat → Option String}
    (hset : t.Settable final) {k : BeatKey} {first : PlacedRow} {others : List PlacedRow}
    (hs : .group k first others ∈ t.phrases) : ∀ p ∈ others, textOf final p = "" := by
  intro p hp
  have hbeat := h.beat_of_phrase hs
  have hmem : p ∈ (⟨k, first, others⟩ : BeatGroup).members := List.mem_cons_of_mem _ hp
  have hnone : final p.2 = none := by
    refine hset.final_eq_none (Table.mem_beat hbeat hmem).1 ?_
    rintro g hg rfl
    -- the row would open a beat of its own
    have hsame := Table.beatOf?_of_mem hg List.mem_cons_self
    rw [Table.beatOf?_of_mem hbeat hmem] at hsame
    have hfirst : first = g.first := congrArg BeatGroup.first (Option.some.inj hsame)
    have hlt := (List.pairwise_cons.1 (Table.pairwise_members hbeat)).1 g.first hp
    rw [show (⟨k, first, others⟩ : BeatGroup).first = first from rfl, hfirst] at hlt
    exact Nat.lt_irrefl _ hlt
  unfold textOf
  rw [hnone, (h.noted _ hbeat).others p hp]
  rfl

/-- Every lyric row can be read. -/
theorem reads_row (h : t.Scored heading key) {final : Nat → Option String} (hset : t.Settable final)
    {p : PlacedRow} (hp : p ∈ t.zipIdx) (hsource : p.1.source = .lyric) :
    (∃ ts, Reads p.1.directive ts) ∧ ∃ ts, Reads (textOf final p) ts := by
  have hmem := List.fst_mem_of_mem_zipIdx hp
  cases hspoken : p.1.isSpoken with
  | false =>
      obtain ⟨hdirective, htext⟩ := h.unheard_script hset hp hsource hspoken
      rw [hdirective, htext]
      exact ⟨⟨[], Reads.empty⟩, [], Reads.empty⟩
  | true =>
      have hdraft : (∃ ts, Reads p.1.directive ts) ∧ ∃ ts, Reads (p.1.draftText.getD "") ts := by
        rcases Bool.or_eq_true _ _ ▸ hspoken with hrhythm | hbar
        · have hled := h.led.forall_mem (P := fun r => ∃ ts, Reads r.directive ts)
            (fun _ _ hled => ⟨_, hled.directive⟩) p.1 hmem hrhythm
          refine ⟨hled, ?_⟩
          obtain ⟨k, first, others, hs, hin⟩ := h.exists_beat hp hrhythm
          have hbeat := h.beat_of_phrase hs
          rcases List.mem_cons.1 hin with rfl | hin
          · rw [(h.noted _ hbeat).first]
            exact ⟨_, h.reads_fragment hbeat⟩
          · rw [(h.noted _ hbeat).others p hin]
            exact ⟨[], Reads.empty⟩
        · have hbarred := h.barred p.1 hmem hbar
          rw [hbarred.directive]
          exact ⟨⟨[], Reads.empty⟩, _, hbarred.draft⟩
      refine ⟨hdraft.1, ?_⟩
      unfold textOf
      cases hfinal : final p.2 with
      | none => exact hdraft.2
      | some text => exact (hset p.2 text hfinal).2

/-- What a table writes with some texts set, phrase by phrase. -/
theorem tokens?_withTexts (h : t.Scored heading key) {texts : List (Nat × String)}
    (hset : t.Settable (Table.textAt? texts)) :
    (t.withTexts texts).tokens?
      = some (t.phrases.flatMap (Stretch.script (Table.textAt? texts))) := by
  have hlegible : ∀ r ∈ t.withTexts texts, r.source = .lyric →
      (∃ ts, Reads r.directive ts) ∧ ∃ ts, Reads (r.finalText.getD "") ts := by
    intro r hr hsource
    obtain ⟨p, hp, rfl⟩ := List.mem_map.1 hr
    exact h.reads_row hset hp hsource
  rw [tokens?_eq_some hlegible]
  congr 1
  generalize hfinal : Table.textAt? texts = final at hset
  have hpieces : ((t.withTexts texts).filter fun r => decide (r.source = .lyric)).flatMap
        (fun r => lexed r.directive ++ lexed (r.finalText.getD ""))
      = (t.zipIdx.filter fun p => decide (p.1.source = .lyric)).flatMap fun p =>
        lexed p.1.directive ++ lexed (textOf final p) := by
    unfold Table.withTexts
    rw [List.filter_map, List.flatMap_map, ← hfinal]
    rfl
  have hspoken : ((t.zipIdx.filter fun p => decide (p.1.source = .lyric)).filter
      fun p => p.1.isSpoken) = t.spoken := by
    rw [List.filter_filter]
    refine List.filter_congr fun p _ => ?_
    cases hs : p.1.isSpoken with
    | false => rfl
    | true => simp [source_of_isSpoken hs]
  rw [hpieces, ← flatMap_filter_of_nil (p := fun p => p.1.isSpoken), hspoken, ← flatMap_phrases,
    List.flatMap_assoc]
  · rw [List.flatMap_def, List.flatMap_def]
    refine congrArg List.flatten (List.map_congr_left fun s hs => ?_)
    cases s with
    | single p => simp [Stretch.members, Stretch.script, Stretch.front]
    | group k first others =>
        have hnil : others.flatMap (fun p => lexed p.1.directive ++ lexed (textOf final p)) = [] := by
          refine List.flatMap_eq_nil_iff.2 fun p hp => ?_
          rw [(h.reads_others hs p hp).lexed_eq, h.textOf_others hset hs p hp,
            Reads.empty.lexed_eq]
          rfl
        show (lexed _ ++ lexed _) ++ others.flatMap _ = _
        rw [hnil, List.append_nil]
        rfl
  · intro p hp hquiet
    obtain ⟨hp, hsource⟩ := List.mem_filter.1 hp
    obtain ⟨hdirective, htext⟩ := h.unheard_script hset hp (of_decide_eq_true hsource) hquiet
    rw [hdirective, htext, Reads.empty.lexed_eq]
    rfl

end Table.Scored

/-- The heading keeps its drafts. -/
theorem Table.Settable.field?_withTexts {t : Table} {texts : List (Nat × String)}
    (hset : t.Settable (Table.textAt? texts)) (name : String) :
    (t.withTexts texts).field? name = t.fields.lookup name := by
  have hplaced : ∀ ps : List PlacedRow, (∀ p ∈ ps, p ∈ t.zipIdx) →
      Table.field? (ps.map fun p : PlacedRow =>
        { p.1 with finalText := some (textOf (Table.textAt? texts) p) }) name
        = (Table.fields (ps.map (·.1))).lookup name := by
    intro ps hps
    induction ps with
    | nil => rfl
    | cons p ps ih =>
        obtain ⟨hp, hps⟩ := List.forall_mem_cons.1 hps
        rw [List.map_cons, List.map_cons, fields_cons, field?_cons, ih hps]
        by_cases hheader : p.1.source = .header
        · have hnone : Table.textAt? texts p.2 = none := by
            refine hset.final_eq_none hp ?_
            rintro g hg rfl
            have hrhythm := (Table.isRhythm_of_mem_beat hg List.mem_cons_self).2
            rw [Row.isRhythm, hheader] at hrhythm
            cases hrhythm
          have htext : textOf (Table.textAt? texts) p = p.1.draftText.getD "" := by
            unfold textOf
            rw [hnone]
            rfl
          rw [if_pos hheader, List.lookup_cons]
          by_cases hname : p.1.raw = name
          · rw [if_pos ⟨hheader, hname⟩, hname, beq_self_eq_true]
            exact congrArg some htext
          · rw [if_neg fun h => hname h.2, beq_eq_false_iff_ne.2 (Ne.symm hname)]
        · rw [if_neg fun h => hheader h.1, if_neg hheader]
  have hall := hplaced t.zipIdx fun p hp => hp
  rwa [List.zipIdx_map_fst] at hall

end LyricScore
