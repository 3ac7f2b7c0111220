/-
Every run prints regular lines. The texts of the beats have no spaces and every tie is right before
its note, whether ties are folded or not; directives and barlines are gaps. So the table of a run is
penned, and its lines follow.

# Which blocks have a line

A block has a line if it has a row that takes time or a barline. A row that takes time need not write
anything itself, where a longer note has taken its beat; but that note is in the same measure, hence
in the same block, so the line is not empty.
-/
import LyricScore.Proofs.Pipeline.TieMarks
import LyricScore.Proofs.Tune.Lines

namespace LyricScore

open Text

namespace Table

/-- A block in which some beat writes something. -/
def Sounds (t : Table) (final : Nat → Option String) (block : Int) : Prop :=
  ∃ g ∈ t.beats, g.key.block = block ∧ lexed (textOf final g.first) ≠ []

namespace Scored

variable {heading : Rat} {key : String} {t : Table} {final : Nat → Option String}

theorem solid_token (h : t.Scored heading key) {g : BeatGroup} (hg : g ∈ t.beats) {p : PlacedRow}
    (hp : p ∈ g.members) : Solid (g.token p) := by
  refine (h.tuned_of_mem hg hp).solid_encode (h.length_pos hg) ?_
  split
  · exact g.solid_opening
  · exact .empty

theorem solid_fragment (h : t.Scored heading key) {g : BeatGroup} (hg : g ∈ t.beats) :
    Solid g.fragment := by
  refine .join fun text htext => ?_
  obtain ⟨p, hp, rfl⟩ := List.mem_map.1 htext
  exact h.solid_token hg hp

theorem solid_dotted (h : t.Scored heading key) {b : PlacedBeat} (hb : b.toBeatGroup ∈ t.beats)
    {text : String} {count : Nat} (hdotted : b.dotted = .ok (text, count)) : Solid text := by
  refine PlacedBeat.solid_dotRuns (h.length_pos hb) (fun run hrun r hr => ?_) hdotted
  have hr : r ∈ b.runs.flatten := List.mem_flatten.2 ⟨run, hrun, hr⟩
  rw [show b.runs.flatten = b.members.map (·.1) from List.flatten_splitBy _ _] at hr
  obtain ⟨p, hp, rfl⟩ := List.mem_map.1 hr
  refine ⟨h.tuned_of_mem hb hp, ?_⟩
  rw [(h.noted _ hb).note p hp]
  exact h.solid_token hb hp

/-- The draft of a beat. -/
theorem pens_draft (h : t.Scored heading key) {g : BeatGroup} (hg : g ∈ t.beats)
    (hfinal : final g.first.2 = none) :
    Solid (textOf final g.first) ∧ t.Sounds final g.key.block := by
  have htext : textOf final g.first = g.fragment := by
    unfold textOf
    rw [hfinal, (h.noted _ hg).first]
    rfl
  refine ⟨htext ▸ h.solid_fragment hg, g, hg, rfl, ?_⟩
  rw [htext, (h.reads_fragment hg).lexed_eq]
  exact List.append_ne_nil_of_left_ne_nil (script_ne_nil _ _ _) _

/-- What folding writes has no spaces, and every beat is in a block that sounds: a longer note is in
the measure of the holds that it takes. -/
theorem pens_of_folded (h : t.Scored heading key) {b : PlacedBeat} (hb : b ∈ t.placedBeats)
    (hfolded : FoldedInto final t.placedBeats b) :
    Solid (textOf final b.first) ∧ t.Sounds final b.key.block := by
  have hbeat := mem_beats_of_placed hb
  have htext : ∀ {r text}, final r.2 = some text → textOf final r = text := by
    intro r text hfinal
    unfold textOf
    rw [hfinal, Option.getD_some]
  have hsounds : ∀ {head : PlacedBeat} {rest m}, head ∈ t.placedBeats → Merge.Takes head rest m →
      final head.first.2 = some (head.first.1.encode m.total "") → t.Sounds final head.key.block := by
    intro head rest m hhead htakes hlonger
    have hmem := mem_beats_of_placed hhead
    have htuned : head.first.1.Tuned := h.tuned_of_mem hmem List.mem_cons_self
    refine ⟨head.toBeatGroup, hmem, rfl, ?_⟩
    rw [htext hlonger, (htuned.reads_encode htakes.total_pos Reads.empty
      fun t ht => absurd ht List.not_mem_nil).lexed_eq]
    exact script_ne_nil _ _ _
  cases hfolded with
  | plain hplain =>
      obtain hfinal | ⟨text, count, hdotted, hcount, hfinal⟩ := hplain
      · exact h.pens_draft hbeat hfinal
      · obtain ⟨text', count', hspec, hreads⟩ := h.dotted_spec hbeat
        obtain ⟨rfl, rfl⟩ := Prod.mk.inj (Except.ok.inj (hdotted.symm.trans hspec))
        obtain ⟨ts, hts, hrows, -⟩ := hreads hcount
        refine ⟨?_, b.toBeatGroup, hbeat, rfl, ?_⟩
        · rw [htext hfinal]
          exact h.solid_dotted hbeat hdotted
        · rw [htext hfinal, hts.lexed_eq]
          exact hrows.ne_nil (List.cons_ne_nil _ _)
  | longer htakes hfinal =>
      refine ⟨?_, hsounds hb htakes hfinal⟩
      rw [htext hfinal]
      exact (h.tuned_of_mem hbeat List.mem_cons_self).solid_encode htakes.total_pos .empty
  | part hhead htakes hlonger hmem hfinal =>
      have htuned := h.tuned_of_mem (mem_beats_of_placed hhead) List.mem_cons_self
      have hholds := Merge.holds_of_follows htuned htakes.isHead (htakes.follows b hmem)
      refine ⟨?_, ?_⟩
      · rw [htext hfinal]
        exact .empty
      · rw [show b.key.block = _ from congrArg MeasureKey.block hholds.inMeasure]
        exact hsounds hhead htakes hlonger

/-- Whether ties are folded or not, the texts of the beats have no spaces, and every beat is in a
block that sounds. -/
theorem withTies_pens (h : t.Scored heading key) (fold : Bool) :
    ∃ texts folding, t.withTies fold = .ok (t.withTexts texts, folding)
      ∧ t.Settable (Table.textAt? texts)
      ∧ (∀ g ∈ t.beats, g.Writes (lexed (textOf (Table.textAt? texts) g.first)))
      ∧ ∀ g ∈ t.beats, Solid (textOf (Table.textAt? texts) g.first)
        ∧ t.Sounds (Table.textAt? texts) g.key.block := by
  obtain ⟨texts, folding, hties, hset, hall⟩ := h.withTies_forall
    (P := fun final g => g.Writes (lexed (textOf final g.first))
      ∧ Solid (textOf final g.first) ∧ t.Sounds final g.key.block) fold
    fun _ b hb hfolded => ⟨h.writes_of_folded hb hfolded, h.pens_of_folded hb hfolded⟩
  exact ⟨texts, folding, hties, hset, fun g hg => (hall g hg).1, fun g hg => (hall g hg).2⟩

/-- What a lyric row announces and writes is penned. -/
theorem penned_row (h : t.Scored heading key) (hset : t.Settable final)
    (hwrites : ∀ g ∈ t.beats, g.Writes (lexed (textOf final g.first)))
    (hsolid : ∀ g ∈ t.beats, Solid (textOf final g.first)) (hmeters : ∀ r ∈ t, r.MeterInked)
    {p : PlacedRow} (hp : p ∈ t.zipIdx) (hsource : p.1.source = .lyric) :
    LyricScore.Penned p.1.directive ∧ LyricScore.Penned (textOf final p) := by
  have hmem := List.fst_mem_of_mem_zipIdx hp
  obtain ⟨⟨ds, hds⟩, ts, hts⟩ := h.reads_row hset hp hsource
  obtain ⟨hplain, -⟩ := h.plain_row hset hwrites hmeters hp hsource
  rw [hds.lexed_eq, hts.lexed_eq] at hplain
  obtain ⟨hplaind, hplaint⟩ := List.forall_mem_append.1 hplain
  cases hspoken : p.1.isSpoken with
  | false =>
      obtain ⟨hdirective, htext⟩ := h.unheard_script hset hp hsource hspoken
      rw [hdirective, htext]
      exact ⟨.empty, .empty⟩
  | true =>
      rcases Bool.or_eq_true _ _ ▸ hspoken with hrhythm | hbar
      · obtain ⟨previous, hled⟩ := h.led.forall_mem (P := fun r => ∃ previous, r.Led previous)
          (fun previous _ hled => ⟨previous, hled⟩) p.1 hmem hrhythm
        have hannounced : ds = p.1.keyFields ++ p.1.changes previous :=
          hds.lexed_eq.symm.trans hled.directive.lexed_eq
        refine ⟨.of_gap hds hplaind (hannounced ▸ isGap_announced previous p.1), ?_⟩
        obtain ⟨k, first, others, hs, hin⟩ := h.exists_beat hp hrhythm
        rcases List.mem_cons.1 hin with rfl | hin
        · have hbeat := h.beat_of_phrase hs
          have hheld := (hwrites _ hbeat).held
          rw [hts.lexed_eq] at hheld
          exact .of_solid hts hplaint (hsolid _ hbeat) hheld
        · rw [h.textOf_others hset hs p hin]
          exact .empty
      · have hscript := h.script_single hset hp hbar
        have hgap : ∀ t ∈ ds ++ ts, t.isGap = true := by
          unfold Stretch.script Stretch.front at hscript
          rw [hds.lexed_eq, hts.lexed_eq] at hscript
          rw [hscript]
          exact List.forall_mem_cons.2
            ⟨rfl, (List.forall_mem_append.1 (isGap_announced none p.1)).1⟩
        obtain ⟨hgapd, hgapt⟩ := List.forall_mem_append.1 hgap
        exact ⟨.of_gap hds hplaind hgapd, .of_gap hts hplaint hgapt⟩

/-- A row of the table with its text set. -/
theorem mem_lyrics_withTexts (texts : List (Nat × String)) {r : Row} :
    r ∈ (t.withTexts texts).lyrics ↔ ∃ p ∈ t.zipIdx, p.1.source = .lyric
      ∧ r = { p.1 with finalText := some (textOf (Table.textAt? texts) p) } := by
  unfold lyrics withTexts
  simp only [List.mem_filter, List.mem_map, decide_eq_true_eq]
  constructor
  · rintro ⟨⟨p, hp, rfl⟩, hsource⟩
    exact ⟨p, hp, hsource, rfl⟩
  · rintro ⟨p, hp, hsource, rfl⟩
    exact ⟨⟨p, hp, rfl⟩, hsource⟩

/-- The blocks that write anything are those that are spoken. -/
theorem mem_spokenBlocks_withTexts (h : t.Scored heading key) {texts : List (Nat × String)}
    (hset : t.Settable (Table.textAt? texts))
    (hsounds : ∀ g ∈ t.beats, t.Sounds (Table.textAt? texts) g.key.block) (block : Int) :
    block ∈ (t.withTexts texts).spokenBlocks
      ↔ ((t.withTexts texts).lyrics.filter fun r => decide (r.block = block)).flatMap Row.tokens
        ≠ [] := by
  have hwritten : ∀ {p : PlacedRow}, p ∈ t.zipIdx → p.1.source = .lyric →
      lexed p.1.directive ++ lexed (textOf (Table.textAt? texts) p) ≠ [] →
      ((t.withTexts texts).lyrics.filter fun r => decide (r.block = p.1.block)).flatMap Row.tokens
        ≠ [] := by
    intro p hp hsource hne hnil
    have hmem := (mem_lyrics_withTexts texts).2 ⟨p, hp, hsource, rfl⟩
    exact hne (List.flatMap_eq_nil_iff.1 hnil _ (List.mem_filter.2 ⟨hmem, decide_eq_true rfl⟩))
  rw [mem_spokenBlocks]
  constructor
  · rintro ⟨r, hr, hspoken, rfl⟩
    obtain ⟨p, hp, rfl⟩ := List.mem_map.1 hr
    have hspoken : p.1.isSpoken = true := hspoken
    rcases Bool.or_eq_true _ _ ▸ hspoken with hrhythm | hbar
    · -- the beat of the row may be part of a longer note, which is in the same block
      obtain ⟨k, first, others, hs, hin⟩ := h.exists_beat hp hrhythm
      have hbeat := h.beat_of_phrase hs
      obtain ⟨g, hg, hblock, htext⟩ := hsounds _ hbeat
      obtain ⟨hfirst, hkey⟩ := Table.mem_beat hg List.mem_cons_self
      obtain ⟨hrhythm', hblock', -⟩ := beatKey?_eq_some.1 hkey
      obtain ⟨-, hblockp, -⟩ := beatKey?_eq_some.1 (Table.mem_beat hbeat hin).2
      have hsame : g.first.1.block = p.1.block := (hblock'.trans hblock).trans hblockp.symm
      have hne := hwritten hfirst (source_of_isSpoken (isSpoken_of_isRhythm hrhythm'))
        (List.append_ne_nil_of_right_ne_nil _ htext)
      rwa [hsame] at hne
    · refine hwritten hp (source_of_isSpoken hspoken) ?_
      have hscript := h.script_single hset hp hbar
      unfold Stretch.script Stretch.front at hscript
      rw [hscript]
      exact List.cons_ne_nil _ _
  · intro hne
    by_contra hnone
    refine hne (List.flatMap_eq_nil_iff.2 fun r hr => ?_)
    obtain ⟨hr, hblock⟩ := List.mem_filter.1 hr
    obtain ⟨p, hp, hsource, rfl⟩ := (mem_lyrics_withTexts texts).1 hr
    have hsilent : p.1.isSpoken = false := Bool.eq_false_iff.2 fun hspoken =>
      hnone ⟨_, (List.mem_filter.1 hr).1, hspoken, of_decide_eq_true hblock⟩
    obtain ⟨hdirective, htext⟩ := h.unheard_script hset hp hsource hsilent
    show lexed p.1.directive ++ lexed (textOf (Table.textAt? texts) p) = []
    rw [hdirective, htext, Reads.empty.lexed_eq]
    rfl

/-- With the texts set, the table is penned. -/
theorem penned (h : t.Scored heading key) {texts : List (Nat × String)}
    (hset : t.Settable (Table.textAt? texts))
    (hwrites : ∀ g ∈ t.beats, g.Writes (lexed (textOf (Table.textAt? texts) g.first)))
    (hpens : ∀ g ∈ t.beats, Solid (textOf (Table.textAt? texts) g.first)
      ∧ t.Sounds (Table.textAt? texts) g.key.block)
    (hmeters : ∀ r ∈ t, r.MeterInked) : (t.withTexts texts).Penned where
  rows r hr := by
    obtain ⟨p, hp, hsource, rfl⟩ := (mem_lyrics_withTexts texts).1 hr
    exact h.penned_row hset hwrites (fun g hg => (hpens g hg).1) hmeters hp hsource
  ordered := h.ordered_lyrics texts
  spoken := h.mem_spokenBlocks_withTexts hset fun g hg => (hpens g hg).2

end Scored

end Table

-- ============================================================== runs

/-- Lines in print. For every text that runs to its end, with ties folded or not, each music line is
regular: it has single spaces, none at its ends and none before a barline, a barline ends it or has a
barline or a space behind it, and tidying leaves it as it is. There is one such line for each block
that has a row that takes time or a barline, in the order of the blocks, and it holds what the block
announces and writes. -/
theorem musicLines_of_run {text : String} {title : Option String} {fold : Bool} {result : Result}
    (h : run (.text text) { title := title, fold := fold } = .ok result) :
    (∀ line ∈ result.table.musicLines, Line.Regular line.toList)
      ∧ (result.table.musicLines.map fun line => residue line.toList)
        = result.table.spokenBlocks.map (fun block => residue (result.table.blockText block))
      ∧ result.table.spokenBlocks.Pairwise (· < ·) := by
  obtain ⟨s, v, heading, ds, folding, hparse, hv, hds, hties, -⟩ := engraved_of_run h
  obtain ⟨unit, key, hscored⟩ := Score.scored (one_le_duration_of_parse hparse) hv hds
  obtain ⟨texts, folding', hfold, hset, hwrites, hpens⟩ := hscored.withTies_pens fold
  obtain ⟨htable, -⟩ := Prod.mk.inj (Except.ok.inj (hties.symm.trans hfold))
  have hmeters := meterInked_of_run h
  rw [htable] at hmeters ⊢
  refine (hscored.penned hset hwrites hpens fun r hr => ?_).musicLines_spec
  obtain ⟨place, hplace⟩ := List.getElem?_of_mem hr
  have hmem : (r, place) ∈ List.zipIdx _ := List.mem_zipIdx_iff_getElem?.2 hplace
  have hinked := hmeters _ (List.mem_map.2 ⟨_, hmem, rfl⟩)
  exact hinked

/-- A note of two beats, a barline alone, a unit without a word, and a triplet that is held. -/
def mixedText : String :=
  "la -\nc\n\n|\nc\n\n[8]\ne | f\n\n-.-.- | - la\nK#1 e"

/-- The run of the mixed text, with its lines and the blocks they come from. -/
def mixedRun : {result // run (.text mixedText) { title := none, fold := true } = .ok result
    ∧ result.table.musicLines = ["C2", "|", "[K:G major] [M:1/4] -(3C/2-C/2-C/2-| [M:2/4] C E"]
    ∧ result.table.spokenBlocks = [1, 2, 4] ∧ result.table.lyricBlocks = [1, 2, 3, 4]} :=
  checked (by decide +kernel)

theorem musicLines_of_run_mixedText :
    ∃ result, run (.text mixedText) { title := none, fold := true } = .ok result
      ∧ result.table.musicLines
        = ["C2", "|", "[K:G major] [M:1/4] -(3C/2-C/2-C/2-| [M:2/4] C E"]
      ∧ result.table.spokenBlocks = [1, 2, 4] ∧ result.table.lyricBlocks = [1, 2, 3, 4]
      ∧ ∀ line ∈ result.table.musicLines, Line.Regular line.toList := by
  obtain ⟨result, hrun, hlines, hspoken, hlyric⟩ := mixedRun
  exact ⟨result, hrun, hlines, hspoken, hlyric, (musicLines_of_run hrun).1⟩

end LyricScore
