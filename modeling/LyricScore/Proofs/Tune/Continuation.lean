/-
Ties from row to row. Behind a row a reader has the pitch of the row in mind, if it has one. Every
row keeps this, and so does what folding makes of rows: a dotted note stands for rows of one pitch,
and the holds that a longer note has taken have its pitch. So the tokens of a table whose holds each
go on with a row of their pitch are read without a tie that goes amiss.
-/
import LyricScore.Proofs.Tune.Folding
import LyricScore.Proofs.Tune.Tying

namespace LyricScore

open Text

namespace Tying

-- ============================================================== rows

/-- A row writes a whole note or rest. -/
theorem whole_script (r : Row) (length : Rat) (opening : List Token) :
    Whole (r.script length opening) := by
  unfold Row.script
  split <;> exact Whole.of_sound rfl (by simp) (by simp)

theorem Whole.of_dotted {length : Rat} {rows : List Row} {ts : List Token}
    (h : Dotted length rows ts) : Whole ts := by
  induction h with
  | nil => exact Whole.of_gap fun t ht => absurd ht List.not_mem_nil
  | row r _ ih => exact (whole_script r _ _).append ih
  | dot _ _ _ ih => exact (whole_script _ _ _).append ih

/-- What a reader has in mind behind a row. -/
def behind (previous : Option Row) : Tying :=
  match previous.bind Row.pitch? with
  | some pitch => .sung pitch
  | none => .silent

theorem behind_of_pitch? {q r : Option Row} (h : q.bind Row.pitch? = r.bind Row.pitch?) :
    behind q = behind r := by
  unfold behind
  rw [h]

theorem settled_behind (previous : Option Row) : (behind previous).Settled := by
  unfold behind
  split <;> trivial

end Tying

open Tying

/-- A hold that goes on with a row of its pitch, if it has one. -/
def Row.Continues (previous : Option Row) (r : Row) : Prop :=
  r.isHold = true → ∀ pitch, r.pitch? = some pitch → previous.bind Row.pitch? = some pitch

/-- A row is read behind the one that it goes on with. -/
theorem after_script {previous : Option Row} {r : Row} (h : r.Continues previous) (length : Rat)
    {opening : List Token} (hopening : opening = [] ∨ ∃ count time, opening = [.tuplet count time]) :
    (behind previous).after (r.script length opening) = some (behind (some r)) := by
  unfold Row.script
  cases hpitch : r.pitch? with
  | none =>
      have hafter : behind (some r) = .silent := by
        unfold behind
        rw [Option.bind_some, hpitch]
      rw [hafter]
      unfold behind
      rcases hopening with rfl | ⟨count, time, rfl⟩
      all_goals split <;> rfl
  | some pitch =>
      have hafter : behind (some r) = .sung pitch := by
        unfold behind
        rw [Option.bind_some, hpitch]
      rw [hafter]
      cases hhold : r.isHold with
      | false =>
          unfold behind
          rcases hopening with rfl | ⟨count, time, rfl⟩
          all_goals split <;> rfl
      | true =>
          have hbefore : behind previous = .sung pitch := by
            unfold behind
            rw [h hhold pitch hpitch]
          rw [hbefore]
          rcases hopening with rfl | ⟨count, time, rfl⟩
          all_goals simp [after_cons, step]

theorem Row.pitch?_of_samePitch {a b : Row} (h : a.samePitch b = true) : a.pitch? = b.pitch? := by
  simp only [Row.samePitch, Bool.and_eq_true, beq_iff_eq] at h
  unfold Row.pitch?
  rw [h.1.2, h.2]

theorem Row.pitch?_of_tiesTo {a b : Row} (h : a.tiesTo b = true) : a.pitch? = b.pitch? := by
  simp only [Row.tiesTo, Bool.and_eq_true] at h
  exact Row.pitch?_of_samePitch h.1.2

/-- Rows are read one behind the other, dotted or not. -/
theorem Dotted.after {length : Rat} {rows : List Row} {ts : List Token} (h : Dotted length rows ts)
    (hrhythm : ∀ r ∈ rows, r.isRhythm = true) {previous : Option Row}
    (hlinked : Linked Row.isRhythm Row.Continues previous rows) :
    (behind previous).after ts = some (behind ((rows.reverse.find? Row.isRhythm).or previous)) := by
  induction h generalizing previous with
  | nil => rfl
  | row r _ ih =>
      obtain ⟨hr, hmore⟩ := List.forall_mem_cons.1 hrhythm
      rw [Linked.cons_of_pos hr] at hlinked
      rw [Linked.reverse_find?_cons, if_pos hr, after_append,
        after_script hlinked.1 length (Or.inl rfl)]
      exact ih hmore hlinked.2
  | @dot x y z hxy hyz rows ts _ ih =>
      obtain ⟨hx, hmore⟩ := List.forall_mem_cons.1 hrhythm
      obtain ⟨hy, hmore⟩ := List.forall_mem_cons.1 hmore
      obtain ⟨hz, hmore⟩ := List.forall_mem_cons.1 hmore
      rw [Linked.cons_of_pos hx, Linked.cons_of_pos hy, Linked.cons_of_pos hz] at hlinked
      rw [Linked.reverse_find?_cons, if_pos hx, Linked.reverse_find?_cons, if_pos hy,
        Linked.reverse_find?_cons, if_pos hz, after_append,
        after_script hlinked.1 (length * 3) (Or.inl rfl)]
      have hsame : behind (some x) = behind (some z) :=
        behind_of_pitch? ((Row.pitch?_of_tiesTo hxy).trans (Row.pitch?_of_tiesTo hyz))
      rw [hsame]
      exact ih hmore hlinked.2.2.2

-- ============================================================= beats

/-- What may be written for a beat: its rows, some of them dotted, a longer note, or nothing if the
beat is part of one. -/
inductive BeatGroup.Writes (g : BeatGroup) : List Token → Prop where
  | rows : g.Writes g.script
  | dotted {ts : List Token} (h : Dotted g.length (g.members.map (·.1)) ts) : g.Writes ts
  | longer (halone : g.others = []) (length : Rat) : g.Writes (g.first.1.script length [])
  | part (halone : g.others = []) (hhold : g.first.1.isHold = true)
      (hsings : g.first.1.pitch?.isSome = true) : g.Writes []

namespace BeatGroup

variable {g : BeatGroup} {ts : List Token}

theorem Writes.whole (h : g.Writes ts) : Whole ts := by
  cases h with
  | rows =>
      unfold script
      exact (whole_script _ _ _).append (Whole.flatMap fun p _ => whole_script p.1 _ _)
  | dotted h => exact Whole.of_dotted h
  | longer _ length => exact whole_script _ length []
  | part => exact Whole.of_gap fun t ht => absurd ht List.not_mem_nil

/-- Whatever is written for a beat, its rows are read. -/
theorem Writes.after (h : g.Writes ts) (hrhythm : ∀ p ∈ g.members, p.1.isRhythm = true)
    {previous : Option Row}
    (hlinked : Linked Row.isRhythm Row.Continues previous (g.members.map (·.1))) :
    (behind previous).after ts
      = some (behind (((g.members.map (·.1)).reverse.find? Row.isRhythm).or previous)) := by
  obtain ⟨hfirst, hothers⟩ := List.forall_mem_cons.1 hrhythm
  have hrows : ∀ r ∈ g.others.map (·.1), r.isRhythm = true := by
    intro r hr
    obtain ⟨p, hp, rfl⟩ := List.mem_map.1 hr
    exact hothers p hp
  have hmembers : g.members.map (·.1) = g.first.1 :: g.others.map (·.1) := rfl
  have hall : ∀ r ∈ g.members.map (·.1), r.isRhythm = true :=
    hmembers ▸ List.forall_mem_cons.2 ⟨hfirst, hrows⟩
  cases h with
  | dotted h => exact h.after hall hlinked
  | rows =>
      rw [hmembers, Linked.cons_of_pos hfirst] at hlinked
      have hmore := (Dotted.plain g.length (g.others.map (·.1))).after hrows hlinked.2
      rw [List.flatMap_map] at hmore
      unfold script
      rw [after_append, after_script hlinked.1 _ g.bracket_cases, hmembers, Linked.reverse_find?_cons,
        if_pos hfirst]
      exact hmore
  | longer halone length =>
      rw [hmembers, halone, List.map_nil, Linked.cons_of_pos hfirst] at hlinked
      rw [hmembers, halone, List.map_nil, Linked.reverse_find?_cons, if_pos hfirst]
      exact after_script hlinked.1 length (Or.inl rfl)
  | part halone hhold hsings =>
      rw [hmembers, halone, List.map_nil, Linked.cons_of_pos hfirst] at hlinked
      rw [hmembers, halone, List.map_nil, Linked.reverse_find?_cons, if_pos hfirst]
      obtain ⟨pitch, hpitch⟩ := Option.isSome_iff_exists.1 hsings
      have hsame : behind previous = behind (some g.first.1) :=
        behind_of_pitch? ((hlinked.1 hhold pitch hpitch).trans hpitch.symm)
      rw [hsame]
      rfl

end BeatGroup

/-- A hold that a longer note has taken writes nothing. -/
theorem PlacedBeat.Holds.writes {k : MeasureKey} {b : PlacedBeat} (h : b.Holds k) : b.Writes [] := by
  obtain ⟨letter, octave, hsound⟩ := h.sound
  unfold Row.sound at hsound
  cases hpitch : b.first.1.pitch? with
  | none =>
      rw [hpitch] at hsound
      cases hsound
  | some pitch =>
      rw [hpitch] at hsound
      exact .part h.alone (Sound.note.inj hsound).1 (by rw [hpitch]; rfl)

-- =========================================================== phrases

/-- What a row announces is a gap. -/
theorem isGap_announced (previous : Option Row) (r : Row) :
    ∀ t ∈ r.keyFields ++ r.changes previous, t.isGap = true := by
  refine List.forall_mem_append.2 ⟨fun t ht => ?_, fun t ht => ?_⟩
  · unfold Row.keyFields at ht
    split at ht
    · obtain rfl := List.mem_singleton.1 ht
      rfl
    · cases ht
  · unfold Row.changes at ht
    split at ht
    · cases ht
    · rcases List.mem_append.1 ht with ht | ht
      all_goals
        split at ht
        · cases ht
        · obtain rfl := List.mem_singleton.1 ht
          rfl

namespace Table.Scored

variable {heading : Rat} {key : String} {t : Table} {final : Nat → Option String}

/-- The draft of a beat has its rows. -/
theorem writes_draft (h : t.Scored heading key) {g : BeatGroup} (hg : g ∈ t.beats)
    (hfinal : final g.first.2 = none) : g.Writes (lexed (textOf final g.first)) := by
  unfold textOf
  rw [hfinal, Option.getD_none, (h.noted _ hg).first, Option.getD_some,
    (h.reads_fragment hg).lexed_eq]
  exact .rows

theorem mem_beats_of_placed {b : PlacedBeat} (hb : b ∈ t.placedBeats) : b.toBeatGroup ∈ t.beats := by
  rw [← map_toBeatGroup_placedBeats t]
  exact List.mem_map_of_mem hb

/-- What folding writes for a beat. -/
theorem writes_of_folded (h : t.Scored heading key) {b : PlacedBeat} (hb : b ∈ t.placedBeats)
    (hfolded : FoldedInto final t.placedBeats b) : b.Writes (lexed (textOf final b.first)) := by
  have hbeat := mem_beats_of_placed hb
  have htext : ∀ {text ts}, final b.first.2 = some text → Reads text ts →
      lexed (textOf final b.first) = ts := by
    intro text ts hfinal hts
    unfold textOf
    rw [hfinal, Option.getD_some, hts.lexed_eq]
  cases hfolded with
  | plain hplain =>
      obtain hfinal | ⟨text, count, hdotted, hcount, hfinal⟩ := hplain
      · exact h.writes_draft hbeat hfinal
      · obtain ⟨text', count', hspec, hreads⟩ := h.dotted_spec hbeat
        obtain ⟨rfl, rfl⟩ := Prod.mk.inj (Except.ok.inj (hdotted.symm.trans hspec))
        obtain ⟨ts, hts, hrows, -⟩ := hreads hcount
        rw [htext hfinal hts]
        exact .dotted hrows
  | longer htakes hfinal =>
      have htuned : b.first.1.Tuned := h.tuned_of_mem hbeat List.mem_cons_self
      rw [htext hfinal (htuned.reads_encode htakes.total_pos Reads.empty
        fun t ht => absurd ht List.not_mem_nil)]
      have hhead := htakes.isHead
      simp only [Merge.isHead, Bool.and_eq_true, List.isEmpty_iff] at hhead
      exact .longer hhead.1.1.1 _
  | part hhead htakes _ hmem hfinal =>
      have htuned := h.tuned_of_mem (mem_beats_of_placed hhead) List.mem_cons_self
      rw [htext hfinal Reads.empty]
      exact (Merge.holds_of_follows htuned htakes.isHead (htakes.follows b hmem)).writes

/-- Whether ties are folded or not, some texts are set. What holds of a beat whatever folding makes of
it holds of every beat. -/
theorem withTies_forall (h : t.Scored heading key) (fold : Bool)
    {P : (Nat → Option String) → BeatGroup → Prop}
    (hall : ∀ final, ∀ b ∈ t.placedBeats, FoldedInto final t.placedBeats b →
      P final b.toBeatGroup) :
    ∃ texts folding, t.withTies fold = .ok (t.withTexts texts, folding)
      ∧ t.Settable (Table.textAt? texts) ∧ ∀ g ∈ t.beats, P (Table.textAt? texts) g := by
  have hbeats : ∀ final, (∀ b ∈ t.placedBeats, FoldedInto final t.placedBeats b) →
      ∀ g ∈ t.beats, P final g := by
    intro final hfolded g hg
    rw [← map_toBeatGroup_placedBeats t] at hg
    obtain ⟨b, hb, rfl⟩ := List.mem_map.1 hg
    exact hall final b hb (hfolded b hb)
  cases fold with
  | false =>
      exact ⟨[], _, rfl, settable_none t, hbeats _ fun _ _ => .plain (Or.inl rfl)⟩
  | true =>
      obtain ⟨f, hf, hset, hfold⟩ := h.folding_spec
      exact ⟨f.texts, f, map_eq_ok.2 ⟨f, hf, rfl⟩, hset, hbeats _ (hfold.into (List.Subset.refl _)
        fun _ hb => absurd hb List.not_mem_nil)⟩

/-- Whether ties are folded or not, some texts are set, each of which is one of its beat. -/
theorem withTies_writes (h : t.Scored heading key) (fold : Bool) :
    ∃ texts folding, t.withTies fold = .ok (t.withTexts texts, folding)
      ∧ t.Settable (Table.textAt? texts)
      ∧ ∀ g ∈ t.beats, g.Writes (lexed (textOf (Table.textAt? texts) g.first)) :=
  h.withTies_forall (P := fun final g => g.Writes (lexed (textOf final g.first))) fold
    fun _ _ hb hfolded => h.writes_of_folded hb hfolded

/-- The phrases of a table are read one behind the other, if its holds go on with rows of their
pitch. -/
theorem after_phrases (h : t.Scored heading key) (hset : t.Settable final)
    (hwrites : ∀ g ∈ t.beats, g.Writes (lexed (textOf final g.first)))
    {ss : List (Stretch BeatKey PlacedRow)} {previous : Option Row}
    (hrest : t.Rest (fun previous r => r.Led previous ∧ r.Continues previous) previous ss) :
    ∃ last, (behind previous).after (ss.flatMap (Stretch.script final)) = some (behind last) := by
  induction ss generalizing previous with
  | nil => exact ⟨previous, rfl⟩
  | cons s ss ih =>
      have hopen := (settled_behind previous).ne_opened
      rw [List.flatMap_cons, after_append]
      cases s with
      | single q =>
          obtain ⟨hq, -, hbar, hrest⟩ := hrest.single h.laid
          have hgap : ∀ t ∈ Token.bar :: q.1.keyFields, t.isGap = true :=
            List.forall_mem_cons.2 ⟨rfl, (List.forall_mem_append.1 (isGap_announced none q.1)).1⟩
          rw [h.script_single hset hq hbar, after_gap hopen hgap]
          exact ih hrest
      | group k first others =>
          have hbeat := h.beat_of_phrase (hrest.phrases _ List.mem_cons_self)
          obtain ⟨hkeys, hled, -⟩ := hrest.group
          obtain ⟨hlinked, hmore⟩ := hrest.behind
          have hannounced := after_gap hopen (isGap_announced previous first.1)
          have hread := (hwrites _ hbeat).after (fun p hp => (beatKey?_eq_some.1 (hkeys p hp)).1)
            (hlinked.imp fun _ _ _ _ hboth => hboth.2)
          have hscript : (behind previous).after ((Stretch.group k first others).script final)
              = some (behind
                ((((first :: others).map (·.1)).reverse.find? Row.isRhythm).or previous)) := by
            unfold Stretch.script Stretch.front
            rw [hled.1.directive.lexed_eq, after_append, hannounced]
            exact hread
          rw [hscript]
          exact ih hmore

end Table.Scored

end LyricScore
