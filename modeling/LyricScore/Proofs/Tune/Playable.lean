/-
Scored tables are playable. Every lyric row of a table behind the notes reads as what it announces
and what its beat or its barline writes, whichever texts are set for the beats. Where every hold
goes on with the note before it, all these tokens are read from the first row to the last without a
tie that goes amiss.
-/
import LyricScore.Proofs.Tune.Continuation
import LyricScore.Proofs.Tune.Music

namespace LyricScore

open Text

-- ============================================================= plain

theorem Token.Plain.of_legible {t : Token} (h : t.Legible) (hfield : t.isField = false) :
    t.Plain := by
  cases t with
  | field name value => cases hfield
  | _ => exact h

/-- A field that holds a word of ink. -/
theorem Token.Plain.of_ink {name : Char} (hname : name = 'K' ∨ name = 'L' ∨ name = 'M')
    {value : List Char} (hne : value ≠ []) (hbracket : ']' ∉ value)
    (hink : ∀ c ∈ value, isInk c = true) :
    (Token.field name value).Plain :=
  ⟨hname, hbracket, Tight.of_isWord ⟨hne, fun c hc => (isInk_eq_true (hink c hc)).1⟩,
    fun c hc => Or.inr (hink c hc)⟩

theorem KnownKey.plain {name : String} (h : KnownKey name) : (Token.field 'K' name.toList).Plain := by
  obtain ⟨key, hkey, rfl⟩ := h
  have hall : ∀ key ∈ MajorKey.all, ']' ∉ key.name.toList
      ∧ (key.name.toList ≠ [] ∧ squeeze key.name.toList = key.name.toList)
      ∧ key.name.toList.all (fun c => c == ' ' || isInk c) = true := by
    decide
  obtain ⟨hbracket, htight, hink⟩ := hall key hkey
  refine ⟨Or.inl rfl, hbracket, htight, fun c hc => ?_⟩
  simpa using List.all_eq_true.1 hink c hc

-- ============================================================== rows

/-- A row whose meter is written with ink. -/
def Row.MeterInked (r : Row) : Prop :=
  ∀ c ∈ r.effectiveMeter.toList, isInk c = true

theorem Row.plain_keyFields {r : Row} (h : ∀ name ∈ r.key, KnownKey name) :
    ∀ t ∈ r.keyFields, t.Plain := by
  unfold Row.keyFields
  cases hkey : r.key with
  | none => exact fun t ht => absurd ht List.not_mem_nil
  | some name => exact List.forall_mem_singleton.2 (h name hkey).plain

/-- What a row announces. -/
theorem Row.plain_announced {heading : Rat} {previous : Option Row} {r : Row} (hled : r.Led previous)
    (hunit : r.InUnit heading previous) (hmeter : r.MeterInked) :
    ∀ t ∈ r.keyFields ++ r.changes previous, t.Plain := by
  refine List.forall_mem_append.2 ⟨Row.plain_keyFields hled.key, ?_⟩
  obtain ⟨unit, hunit, hpos, -⟩ := hunit
  obtain ⟨beats, denominator, htext⟩ := hled.meter
  have heffective := effectiveMeter_of_meterText htext
  unfold Row.changes
  cases previous with
  | none => exact fun t ht => absurd ht List.not_mem_nil
  | some q =>
      refine List.forall_mem_append.2 ⟨fun t ht => ?_, fun t ht => ?_⟩
      · split at ht
        · cases ht
        · obtain rfl := List.mem_singleton.1 ht
          rw [effectiveUnit_of_unit hunit hpos]
          refine .of_ink (Or.inr (Or.inl rfl)) ?_ (not_mem_unitText unit)
            fun c hc => (ink_unitText hpos hc).1
          simp [unitText]
      · split at ht
        · cases ht
        · obtain rfl := List.mem_singleton.1 ht
          refine .of_ink (Or.inr (Or.inr rfl)) ?_ ?_ hmeter
          · rw [heffective]
            exact fun hnil => meterText_ne_empty beats denominator (String.toList_eq_nil_iff.1 hnil)
          · rw [heffective]
            exact not_mem_meterText beats denominator

theorem BeatGroup.Writes.isField_eq_false {g : BeatGroup} {ts : List Token} (h : g.Writes ts) :
    ∀ t ∈ ts, t.isField = false := by
  have hnone : ∀ t ∈ ([] : List Token), t.isField = false := fun _ ht => absurd ht List.not_mem_nil
  cases h with
  | rows =>
      unfold BeatGroup.script
      refine List.forall_mem_append.2 ⟨isField_script g.isField_bracket, fun t ht => ?_⟩
      obtain ⟨p, -, ht⟩ := List.mem_flatMap.1 ht
      exact isField_script hnone t ht
  | dotted h => exact h.isField_eq_false
  | longer _ length => exact isField_script hnone
  | part => exact hnone

namespace Table.Scored

variable {heading : Rat} {key : String} {t : Table} {final : Nat → Option String}

/-- What a lyric row puts into the music. -/
theorem plain_row (h : t.Scored heading key) (hset : t.Settable final)
    (hwrites : ∀ g ∈ t.beats, g.Writes (lexed (textOf final g.first)))
    (hmeters : ∀ r ∈ t, r.MeterInked) {p : PlacedRow} (hp : p ∈ t.zipIdx)
    (hsource : p.1.source = .lyric) :
    (∀ t ∈ lexed p.1.directive ++ lexed (textOf final p), t.Plain)
      ∧ Tying.Whole (lexed p.1.directive ++ lexed (textOf final p)) := by
  have hmem := List.fst_mem_of_mem_zipIdx hp
  obtain ⟨-, ts, htext⟩ := h.reads_row hset hp hsource
  cases hspoken : p.1.isSpoken with
  | false =>
      obtain ⟨hdirective, htext⟩ := h.unheard_script hset hp hsource hspoken
      rw [hdirective, htext, Reads.empty.lexed_eq]
      exact ⟨by simp, Tying.Whole.of_gap (by simp)⟩
  | true =>
      rcases Bool.or_eq_true _ _ ▸ hspoken with hrhythm | hbar
      · obtain ⟨previous, hled, hunit⟩ := (h.led.and h.units).forall_mem
          (P := fun r => ∃ previous, r.Led previous ∧ r.InUnit heading previous)
          (fun previous _ hboth => ⟨previous, hboth⟩) p.1 hmem hrhythm
        rw [hled.directive.lexed_eq]
        have hannounced := Tying.Whole.of_gap (isGap_announced previous p.1)
        have hplain := Row.plain_announced hled hunit (hmeters p.1 hmem)
        obtain ⟨k, first, others, hs, hin⟩ := h.exists_beat hp hrhythm
        rcases List.mem_cons.1 hin with rfl | hin
        · have hwritten := hwrites _ (h.beat_of_phrase hs)
          refine ⟨List.forall_mem_append.2 ⟨hplain, fun t ht => ?_⟩, hannounced.append hwritten.whole⟩
          refine .of_legible (htext.1 t ?_) (hwritten.isField_eq_false t ht)
          rwa [← htext.lexed_eq]
        · rw [h.textOf_others hset hs p hin, Reads.empty.lexed_eq, List.append_nil]
          exact ⟨hplain, hannounced⟩
      · have hscript := h.script_single hset hp hbar
        unfold Stretch.script Stretch.front at hscript
        rw [hscript]
        have hkeys := Row.plain_keyFields (h.barred p.1 hmem hbar).key
        refine ⟨List.forall_mem_cons.2 ⟨trivial, hkeys⟩, ?_⟩
        exact Tying.Whole.of_gap
          (List.forall_mem_cons.2 ⟨rfl, (List.forall_mem_append.1 (isGap_announced none p.1)).1⟩)

/-- Lyric rows stand in the order of their blocks. -/
theorem ordered_lyrics (h : t.Scored heading key) (texts : List (Nat × String)) :
    (t.withTexts texts).lyrics.Pairwise fun a b => a.block ≤ b.block := by
  have hlaid : (t.withTexts texts).Laid :=
    h.laid.of_outline (map_outline_of_sung (map_sung_withTexts t texts))
  have hlyric : ∀ r ∈ (t.withTexts texts).lyrics, r.source ≠ .header := fun r hr => by
    rw [of_decide_eq_true (List.mem_filter.1 hr).2]
    decide
  exact (hlaid.ordered.filter _).imp_of_mem fun ha hb hab => hab.1 (hlyric _ ha) (hlyric _ hb)

/-- With the texts set, the table is playable. -/
theorem playable (h : t.Scored heading key) {texts : List (Nat × String)}
    (hset : t.Settable (Table.textAt? texts))
    (hwrites : ∀ g ∈ t.beats, g.Writes (lexed (textOf (Table.textAt? texts) g.first)))
    (hmeters : ∀ r ∈ t, r.MeterInked) (hcontinues : Linked Row.isRhythm Row.Continues none t) :
    (t.withTexts texts).Playable := by
  have hreads : ∀ r ∈ t.withTexts texts, r.source = .lyric →
      (∃ ts, Reads r.directive ts) ∧ ∃ ts, Reads (r.finalText.getD "") ts := by
    intro r hr hsource
    obtain ⟨p, hp, rfl⟩ := List.mem_map.1 hr
    exact h.reads_row hset hp hsource
  refine ⟨fun r hr => ?_, h.ordered_lyrics texts, ?_⟩
  · obtain ⟨hr, hsource⟩ := List.mem_filter.1 hr
    obtain ⟨⟨ds, hds⟩, ts, hts⟩ := hreads r hr (of_decide_eq_true hsource)
    obtain ⟨p, hp, rfl⟩ := List.mem_map.1 hr
    obtain ⟨hplain, hwhole⟩ := h.plain_row hset hwrites hmeters hp (of_decide_eq_true hsource)
    exact ⟨by rwa [hds.lexed_eq], hts.lexed_eq ▸ hts, hplain, hwhole⟩
  · have htokens : (t.withTexts texts).lyrics.flatMap Row.tokens
        = t.phrases.flatMap (Stretch.script (Table.textAt? texts)) := by
      refine Option.some.inj (Eq.trans ?_ (h.tokens?_withTexts hset))
      rw [tokens?_eq_some hreads]
      refine congrArg some (List.flatMap_congr fun r hr => ?_)
      obtain ⟨p, hp, rfl⟩ := List.mem_map.1 (List.mem_filter.1 hr).1
      rfl
    obtain ⟨last, hlast⟩ := h.after_phrases hset hwrites (Rest.start (h.led.and hcontinues))
    exact ⟨_, Tying.settled_behind last, htokens ▸ hlast⟩

end Table.Scored

end LyricScore
