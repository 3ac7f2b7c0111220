/-
The tune and the performance agree. Two ways lead from a table to its notes: the rows can be
performed, beat by beat, and the tune that they write can be read and heard. Both give the same
notes.

# The simulation

The performance keeps the note that sounds and gives it out when it ends; a listener gives out a
note when it starts, with the time of all that is tied to it. So from any place on, what is
performed is the sounding note, longer by what is still tied to it, and then what a listener
hears (`Plays`). One lemma for each kind of sound carries this over a row, a barline or a field,
and the rest is an induction on the phrases of the table.
-/
import LyricScore.Proofs.Performance.Playing
import LyricScore.Proofs.Tune.Folding

namespace LyricScore

open Text Performance

-- ======================================================= alterations

/-- A listener who knows the alterations of a performance. -/
structure Follows (e : Ear) (a : Alterations) : Prop where
  marks : ∀ (letter : Letter) (octave : Int),
    a.marks.lookup (letter.name, octave) = e.marks letter octave
  key : ∀ letter : Letter, (a.key.lookup letter.name).getD 0 = fifthsAlteration e.fifths letter

theorem Letter.name_injective {letter letter' : Letter} (h : letter.name = letter'.name) :
    letter = letter' := by
  have hsome := congrArg Letter.ofName? h
  rw [ofName?_name, ofName?_name] at hsome
  exact Option.some.inj hsome

namespace Follows

theorem get {e : Ear} {a : Alterations} (h : Follows e a) (letter : Letter) (octave : Int) :
    a.get letter.name octave = e.alteration letter octave := by
  unfold Alterations.get Ear.alteration
  rw [h.marks, ← h.key]
  cases e.marks letter octave <;> rfl

theorem barline {e : Ear} {a : Alterations} (h : Follows e a) : Follows e.barline a.barline :=
  ⟨fun _ _ => rfl, h.key⟩

theorem ofKey {name : String} (h : KnownKey name) : Follows (.ofKey name.toList) (.ofKey name) := by
  obtain ⟨key, hkey, rfl⟩ := h
  have hall : ∀ key ∈ MajorKey.all, ∀ letter ∈ Letter.all,
      ((keyAlterations key.name).lookup letter.name).getD 0
        = fifthsAlteration (keyFifths key.name.toList) letter := by decide
  exact ⟨fun _ _ => rfl, fun letter => hall key hkey letter (by cases letter <;> decide)⟩

theorem mark {e : Ear} {a : Alterations} (h : Follows e a) (letter : Letter) (octave : Int)
    (accidental : Option Accidental) :
    Follows (e.mark letter octave (accidental.getD .plain)) (a.mark letter.name octave accidental) := by
  cases accidental with
  | none => exact h
  | some accidental =>
      have hmarked : ∀ semitones, Follows
          { e with marks := fun l o =>
            if l = letter ∧ o = octave then some semitones else e.marks l o }
          { a with marks := ((letter.name, octave), semitones)
            :: a.marks.filter fun m => decide (m.1 ≠ (letter.name, octave)) } := by
        intro semitones
        refine ⟨fun l o => ?_, h.key⟩
        show List.lookup _ (_ :: _) = if l = letter ∧ o = octave then _ else _
        rw [List.lookup_cons]
        by_cases hsame : l = letter ∧ o = octave
        · rw [if_pos hsame, hsame.1, hsame.2, beq_self_eq_true]
        · have hne : (l.name, o) ≠ (letter.name, octave) := fun heq =>
            hsame ⟨Letter.name_injective (Prod.mk.inj heq).1, (Prod.mk.inj heq).2⟩
          rw [if_neg hsame, beq_eq_false_iff_ne.2 hne, lookup_filter fun _ => decide_eq_true hne]
          exact h.marks l o
      cases accidental
      case plain => exact h
      all_goals exact hmarked _

end Follows

-- ============================================================ sounds

/-- What is performed from a place on, where a note may sound, is what a listener hears from there
on: first the sounding note with the time of what is tied to it, and then the others. -/
def Plays (out : Except Error (List NoteEvent)) (sounding : Option NoteEvent) (e : Ear)
    (hs : List Heard) : Prop :=
  ∃ events, perform e (fuse sounding.isSome hs) = some events
    ∧ out = .ok (sounding.toList.map (fun n => { n with duration := n.duration + heldFor hs })
      ++ events)

namespace Plays

variable {out : Except Error (List NoteEvent)} {sounding : Option NoteEvent} {e : Ear}
  {hs : List Heard}

/-- A note to which nothing is tied stays as it is. -/
theorem lengthen_zero (sounding : Option NoteEvent) :
    sounding.toList.map (fun n => { n with duration := n.duration + 0 }) = sounding.toList := by
  cases sounding with
  | none => rfl
  | some n =>
      show [({ n with duration := n.duration + 0 } : NoteEvent)] = _
      rw [Rat.add_zero]
      rfl

theorem nil (sounding : Option NoteEvent) (e : Ear) : Plays (.ok sounding.toList) sounding e [] := by
  refine ⟨[], rfl, ?_⟩
  show _ = Except.ok (sounding.toList.map (fun n => { n with duration := n.duration + 0 }) ++ [])
  rw [lengthen_zero, List.append_nil]

theorem bar (time : Rat) (h : Plays out sounding e.barline hs) :
    Plays out sounding e (⟨time, 0, .bar⟩ :: hs) := by
  obtain ⟨events, hperform, hout⟩ := h
  exact ⟨events, hperform, hout⟩

theorem field (time : Rat) {name : Char} {value : List Char}
    (h : Plays out sounding (if name = 'K' then .ofKey value else e) hs) :
    Plays out sounding e (⟨time, 0, .field name value⟩ :: hs) := by
  obtain ⟨events, hperform, hout⟩ := h
  exact ⟨events, hperform, hout⟩

/-- Silence ends the sounding note. -/
theorem rest (time length : Rat) (h : Plays out none e hs) :
    Plays (out.map (sounding.toList ++ ·)) sounding e (⟨time, length, .rest⟩ :: hs) := by
  obtain ⟨events, hperform, rfl⟩ := h
  refine ⟨events, hperform, ?_⟩
  show Except.ok (sounding.toList ++ events)
    = .ok (sounding.toList.map (fun n => { n with duration := n.duration + 0 }) ++ events)
  rw [lengthen_zero]

/-- A note ends the one that sounds, and it sounds then. -/
theorem note (time length : Rat) (accidental : Accidental) (letter : Letter) (octave : Int)
    (h : Plays out
      (some ⟨soundingKey letter octave ((e.mark letter octave accidental).alteration letter octave),
        time, length⟩)
      (e.mark letter octave accidental) hs) :
    Plays (out.map (sounding.toList ++ ·)) sounding e
      (⟨time, length, .note false accidental letter octave⟩ :: hs) := by
  obtain ⟨events, hperform, rfl⟩ := h
  refine ⟨⟨soundingKey letter octave ((e.mark letter octave accidental).alteration letter octave),
    time, length + heldFor hs⟩ :: events, ?_, ?_⟩
  · show Option.map _ (perform _ (fuse true hs)) = _
    rw [show perform _ (fuse true hs) = _ from hperform, Option.map_some]
  · show Except.ok (sounding.toList ++ _)
      = .ok (sounding.toList.map (fun n => { n with duration := n.duration + 0 }) ++ _)
    rw [lengthen_zero]
    rfl

/-- A tied note goes on with the one that sounds. -/
theorem hold (time length : Rat) (accidental : Accidental) (letter : Letter) (octave : Int)
    {n : NoteEvent} (h : Plays out (some { n with duration := n.duration + length }) e hs) :
    Plays out (some n) e (⟨time, length, .note true accidental letter octave⟩ :: hs) := by
  obtain ⟨events, hperform, rfl⟩ := h
  refine ⟨events, hperform, ?_⟩
  show Except.ok ({ n with duration := n.duration + length + heldFor hs } :: events)
    = .ok ({ n with duration := n.duration + (length + heldFor hs) } :: events)
  rw [Rat.add_assoc]

end Plays

/-- The ear at a row that may bring a new key. -/
def Ear.enter (e : Ear) (r : Row) : Ear :=
  match r.key with
  | some name => .ofKey name.toList
  | none => e

theorem after_keyFields (p : Pulse) (r : Row) : p.after r.keyFields = p := by
  unfold Row.keyFields
  split <;> rfl

/-- A key changes the ear and nothing else. -/
theorem plays_keyFields {out : Except Error (List NoteEvent)} {sounding : Option NoteEvent} {e : Ear}
    {hs : List Heard} {p : Pulse} {r : Row} (h : Plays out sounding (e.enter r) hs) :
    Plays out sounding e (hear p r.keyFields ++ hs) := by
  unfold Ear.enter at h
  unfold Row.keyFields
  cases hkey : r.key with
  | none =>
      rw [hkey] at h
      exact h
  | some name =>
      rw [hkey] at h
      exact Plays.field p.time h

/-- A change of unit or meter is not heard. -/
theorem plays_changes {out : Except Error (List NoteEvent)} {sounding : Option NoteEvent} {e : Ear}
    {hs : List Heard} {p : Pulse} {r : Row} {previous : Option Row} (h : Plays out sounding e hs) :
    Plays out sounding e (hear p (r.changes previous) ++ hs) := by
  have hfield : ∀ (p : Pulse) (name : Char) (value : List Char), name ≠ 'K' →
      ∀ {hs}, Plays out sounding e hs → Plays out sounding e (hear p [.field name value] ++ hs) := by
    intro p name value hname hs h
    refine Plays.field p.time ?_
    rwa [if_neg hname]
  unfold Row.changes
  split
  · exact h
  · rw [hear_append, List.append_assoc]
    split
    · split
      · exact h
      · exact hfield _ _ _ (by decide) h
    · refine hfield _ _ _ (by decide) ?_
      split
      · exact h
      · exact hfield _ _ _ (by decide) h

-- ============================================================== rows

/-- A row that holds a note comes behind one. -/
def Row.Sustains (previous : Option Row) (r : Row) : Prop :=
  r.isHold = true → r.hasPitch = true → previous.any Row.hasPitch = true

/-- The performance behind a row, and the ear of a listener there: they know the same alterations,
and a note sounds if the row has a pitch. -/
structure Keeps (s : State) (e : Ear) (previous : Option Row) : Prop where
  follows : Follows e s.alterations
  sounding : s.sounding.isSome = previous.any Row.hasPitch

theorem State.enter_keeps (s : State) (r : Row) :
    (s.enter r).sounding = s.sounding ∧ (s.enter r).time = s.time := by
  unfold State.enter
  split <;> exact ⟨rfl, rfl⟩

theorem Keeps.enter {s : State} {e : Ear} {previous : Option Row} (h : Keeps s e previous) {r : Row}
    (hkey : ∀ name ∈ r.key, KnownKey name) : Keeps (s.enter r) (e.enter r) previous := by
  unfold State.enter Ear.enter
  cases hname : r.key with
  | none => exact h
  | some name => exact ⟨Follows.ofKey (hkey name hname), h.sounding⟩

theorem play_enter (groups : List BeatGroup) (s : State) {r : Row} (rest : List Row)
    (hsource : r.source = .lyric) :
    play groups s (r :: rest) = play groups (s.enter r) (r :: rest) := by
  have htwice : (s.enter r).enter r = s.enter r := by
    unfold State.enter
    cases r.key <;> rfl
  have hlyric : ¬ r.source ≠ .lyric := fun hne => hne hsource
  simp only [play, if_neg hlyric, htwice]

/-- One row of a beat. -/
theorem plays_row {groups : List BeatGroup} {g : BeatGroup} {s : State} {e : Ear} {r : Row}
    {previous : Option Row} {rest : List Row} {hs : List Heard} (hrhythm : r.isRhythm = true)
    (htuned : r.Tuned) (hbeat : Table.beatOf? groups r = some g) (henter : s.enter r = s)
    (hkeeps : Keeps s e previous) (hsustains : r.Sustains previous)
    (hrest : ∀ s' e', Keeps s' e' (some r) → s'.time = s.time + g.step →
      Plays (play groups s' rest) s'.sounding e' hs) :
    Plays (play groups s (r :: rest)) s.sounding e (⟨s.time, g.step, r.sound⟩ :: hs) := by
  simp only [Row.isRhythm, Bool.and_eq_true, beq_iff_eq] at hrhythm
  obtain ⟨hsource, hkind⟩ := hrhythm
  have hlyric : ¬ r.source ≠ .lyric := fun hne => hne hsource
  have hbar : r.kind ≠ .barline := by
    rintro hbar
    rw [hbar] at hkind
    cases hkind
  simp only [play, if_neg hlyric, henter, if_neg hbar, hbeat]
  rcases htuned.silent_or_sings with ⟨-, hpitch, hnone⟩ | ⟨letter, octave, hsings, hpitch, hl, ho⟩
  · -- a rest, or a row without a pitch
    have hletter : r.letter = none := by
      have hboth := htuned.both
      cases hl : r.letter with
      | none => rfl
      | some name =>
          rw [Row.hasPitch, ← hboth, hl] at hnone
          cases hnone
    have hsound : r.sound = .rest := by
      unfold Row.sound
      rw [hpitch]
    have hquiet : Plays (play groups (s.silence g.step) rest) none e hs :=
      hrest (s.silence g.step) e ⟨hkeeps.follows, hnone.symm⟩ rfl
    have hsilence : Plays ((play groups (s.silence g.step) rest).map (s.sounding.toList ++ ·))
        s.sounding e (⟨s.time, g.step, .rest⟩ :: hs) := Plays.rest s.time g.step hquiet
    simp only [hletter, hsound]
    cases r.isAttack <;> cases r.isHold <;> exact hsilence
  · have hhas : r.hasPitch = true := by simp [Row.hasPitch, hl, ho]
    have hsound : r.sound = .note r.isHold r.writtenAccidental letter octave := by
      unfold Row.sound
      rw [hpitch]
    cases hattack : r.isAttack with
    | true =>
        have hhold := isHold_of_isAttack hattack
        have hname : Letter.ofName letter.name = .ok letter := by
          unfold Letter.ofName
          rw [ofName?_name]
        have hwritten : r.writtenAccidental = r.accidental.getD .plain := by
          unfold Row.writtenAccidental
          rw [hhold, if_neg Bool.false_ne_true]
        have hmark := hkeeps.follows.mark letter octave r.accidental
        simp only [hl, ho, hname, hsound, hhold, hwritten]
        refine Plays.note _ _ _ _ _ ?_
        rw [soundingKey_eq, ← hmark.get]
        exact hrest (s.attack letter r octave g.step) _ ⟨hmark, hhas.symm⟩ rfl
    | false =>
        have hhold : r.isHold = true := by
          simp only [Row.isAttack, Row.isHold, Row.isSilent, hsource] at hattack hsings ⊢
          cases hk : r.kind <;> simp [hk, Kind.isAttack, Kind.isHold, Kind.isRhythm] at *
        obtain ⟨n, hn⟩ := Option.isSome_iff_exists.1 (hkeeps.sounding.trans (hsustains hhold hhas))
        simp only [hhold, hl, ho, hn, hsound]
        exact Plays.hold _ _ _ _ _ (hrest (s.hold n g.step) e ⟨hkeeps.follows, hhas.symm⟩ rfl)

/-- The rows of a beat behind its first one, which bring no key. -/
theorem plays_rows {groups : List BeatGroup} {g : BeatGroup} {l rest : List Row} {hs : List Heard}
    (hl : ∀ r ∈ l, r.isRhythm = true ∧ r.Tuned ∧ Table.beatOf? groups r = some g ∧ r.key = none)
    {s : State} {e : Ear} {previous : Option Row} (hkeeps : Keeps s e previous)
    (hsustains : Linked Row.isRhythm Row.Sustains previous l)
    (hrest : ∀ s' e', Keeps s' e' ((l.reverse.find? Row.isRhythm).or previous) →
      s'.time = s.time + l.length * g.step → Plays (play groups s' rest) s'.sounding e' hs) :
    Plays (play groups s (l ++ rest)) s.sounding e
      (paced s.time g.step (l.map Row.sound) ++ hs) := by
  induction l generalizing s e previous with
  | nil =>
      apply hrest s e hkeeps
      show s.time = s.time + ((0 : Nat) : Rat) * g.step
      grind
  | cons r l ih =>
      obtain ⟨⟨hrhythm, htuned, hbeat, hkey⟩, hmore⟩ := List.forall_mem_cons.1 hl
      rw [Linked.cons_of_pos hrhythm] at hsustains
      have henter : s.enter r = s := by
        unfold State.enter
        rw [hkey]
      refine plays_row hrhythm htuned hbeat henter hkeeps hsustains.1 fun s' e' hkeeps' htime => ?_
      rw [← htime]
      refine ih hmore hkeeps' hsustains.2 fun s'' e'' hkeeps'' htime' => hrest s'' e'' ?_ ?_
      · rw [Linked.reverse_find?_cons, if_pos hrhythm]
        exact hkeeps''
      · rw [htime', htime, List.length_cons]
        grind

-- =========================================================== phrases

/-- The unit that a listener goes by behind a row; at the start it is the one of the heading. -/
def unitBehind (heading : Rat) (previous : Option Row) : Rat :=
  previous.elim (Lexer.length (unitText heading).toList).1 Row.effectiveUnit

/-- Behind the fields of a row its unit is in force. -/
theorem after_changes {heading : Rat} {previous : Option Row} {r : Row} (h : r.InUnit heading previous)
    {p : Pulse} (hp : p.unit = unitBehind heading previous) :
    p.after (r.changes previous) = { p with unit := r.effectiveUnit } := by
  obtain ⟨unit, hunit, hpos, hfirst, -⟩ := h
  have heffective := effectiveUnit_of_unit hunit hpos
  have hread : (Lexer.length (unitText r.effectiveUnit).toList).1 = r.effectiveUnit := by
    have hlength : Lexer.length ((unitText r.effectiveUnit).toList ++ []) = (r.effectiveUnit, []) :=
      Lexer.length_unitText (heffective ▸ hpos) nofun
    rw [List.append_nil] at hlength
    rw [hlength]
  cases previous with
  | none =>
      have hheading : p.unit = r.effectiveUnit := by
        rw [hp, unitBehind, Option.elim_none, ← hfirst rfl, ← heffective, hread]
      show p = _
      rw [← hheading]
  | some q =>
      have hmeter : ∀ p : Pulse, p.after (if r.effectiveMeter = q.effectiveMeter then []
          else [.field 'M' r.effectiveMeter.toList]) = p := by
        intro p
        split <;> rfl
      have hbefore : p.unit = q.effectiveUnit := hp
      unfold Row.changes
      dsimp only
      rw [Pulse.after_append, hmeter]
      split
      · next hsame =>
        show p = _
        rw [hsame, ← hbefore]
      · show ({ p with unit := (Lexer.length (unitText r.effectiveUnit).toList).1 } : Pulse) = _
        rw [hread]

/-- A row that takes time, as all that is known of it links it to the one before it. -/
structure Row.Traced (heading : Rat) (previous : Option Row) (r : Row) : Prop where
  inUnit : r.InUnit heading previous
  led : r.Led previous
  sustains : r.Sustains previous

/-- The performance and a listener at the same place, behind a row. -/
structure Meets (heading : Rat) (s : State) (e : Ear) (p : Pulse) (previous : Option Row) : Prop where
  keeps : Keeps s e previous
  idle : p.Idle
  time : p.time = s.time
  unit : p.unit = unitBehind heading previous

namespace Table.Scored

variable {heading : Rat} {key : String} {t : Table} {s : State} {e : Ear} {p : Pulse}
  {previous : Option Row} {ss : List (Stretch BeatKey PlacedRow)}

/-- What is performed of some phrases is what a listener hears of their drafts. -/
def PlaysRest (t : Table) (s : State) (e : Ear) (p : Pulse) (ss : List (Stretch BeatKey PlacedRow)) :
    Prop :=
  Plays (play t.beats s ((ss.flatMap Stretch.members).map (·.1))) s.sounding e
    (hear p (ss.flatMap (Stretch.script fun _ => none)))

/-- A barline, and the key behind it. -/
theorem plays_single (h : t.Scored heading key) {q : PlacedRow} (hq : q ∈ t.zipIdx)
    (hbar : Keys.isLyricBarline q.1 = true) (hmeets : Meets heading s e p previous)
    (hnext : ∀ {s e p}, Meets heading s e p previous → PlaysRest t s e p ss) :
    PlaysRest t s e p (.single q :: ss) := by
  have hscript := h.script_single (settable_none t) hq hbar
  have hknown := (h.barred q.1 (List.fst_mem_of_mem_zipIdx hq) hbar).key
  obtain ⟨hsounding, htime⟩ := State.enter_keeps s q.1
  simp only [Keys.isLyricBarline, Bool.and_eq_true, beq_iff_eq] at hbar
  have hlyric : ¬ q.1.source ≠ .lyric := fun hne => hne hbar.1
  have hfollows : Follows (e.barline.enter q.1) (s.enter q.1).alterations.barline := by
    unfold Ear.enter State.enter
    cases hkey : q.1.key with
    | none => exact hmeets.keeps.follows.barline
    | some name => exact (Follows.ofKey (hknown name hkey)).barline
  have hrest : PlaysRest t { s.enter q.1 with alterations := (s.enter q.1).alterations.barline }
      (e.barline.enter q.1) p ss := by
    refine hnext ⟨⟨hfollows, ?_⟩, hmeets.idle, ?_, hmeets.unit⟩
    · exact (congrArg Option.isSome hsounding).trans hmeets.keeps.sounding
    · exact hmeets.time.trans htime.symm
  unfold PlaysRest at hrest ⊢
  rw [List.flatMap_cons, List.flatMap_cons, hscript, List.cons_append]
  show Plays (play t.beats s (q.1 :: _)) _ _ (⟨p.time, 0, .bar⟩ :: hear p (q.1.keyFields ++ _))
  rw [hear_append, after_keyFields]
  simp only [play, if_neg hlyric, if_pos hbar.2]
  rw [show s.sounding = _ from hsounding.symm]
  exact Plays.bar p.time (plays_keyFields hrest)

/-- The rows of a beat behind the first bring no key, and the nearest row behind the beat is one of
them, in the unit of the first. -/
theorem traced_others {k : BeatKey} {first : PlacedRow} {others : List PlacedRow}
    (hrest : t.Rest (Row.Traced heading) previous (.group k first others :: ss)) :
    (∀ q ∈ others, q.1.key = none)
      ∧ unitBehind heading ((((first :: others).map (·.1)).reverse.find? Row.isRhythm).or previous)
        = first.1.effectiveUnit := by
  obtain ⟨hkeys, -, hlater, -⟩ := hrest.group
  have hmeasure : ∀ q ∈ first :: others, q.1.measureKey? = some k.inMeasure := fun q hq =>
    measureKey?_of_beatKey? (hkeys q hq)
  have hrows : ∀ r ∈ (first :: others).map (·.1), r.isRhythm = true ∧ r.measureKey? = some k.inMeasure := by
    intro r hr
    obtain ⟨q, hq, rfl⟩ := List.mem_map.1 hr
    exact ⟨(beatKey?_eq_some.1 (hkeys q hq)).1, hmeasure q hq⟩
  refine ⟨fun q hq => ?_, ?_⟩
  · obtain ⟨c, hc, htraced⟩ := hlater q hq
    have hnone := htraced.led.within c.1 rfl
      ((hmeasure c hc).trans (hmeasure q (List.mem_cons_of_mem _ hq)).symm)
    have hfields := (List.append_eq_nil_iff.1 hnone).1
    unfold Row.keyFields at hfields
    cases hkey : q.1.key with
    | none => rfl
    | some name =>
        rw [hkey] at hfields
        cases hfields
  · have hunits := (hrest.behind.1.imp fun _ _ _ _ htraced => htraced.inUnit).inUnit_constant hrows
    have hsome : (((first :: others).map (·.1)).reverse.find? Row.isRhythm).isSome = true := by
      rw [List.find?_isSome]
      exact ⟨first.1, by simp, (hrows first.1 List.mem_cons_self).1⟩
    obtain ⟨c, hc⟩ := Option.isSome_iff_exists.1 hsome
    rw [hc, Option.some_or]
    show c.effectiveUnit = _
    unfold Row.effectiveUnit
    rcases List.mem_cons.1 (List.mem_reverse.1 (List.mem_of_find?_eq_some hc)) with rfl | hmem
    · rfl
    · rw [hunits c hmem]

/-- What is heard of a beat: what its first row announces, and then its rows at an even pace. -/
theorem hear_group (h : t.Scored heading key) {k : BeatKey} {first : PlacedRow}
    {others : List PlacedRow} (hs : .group k first others ∈ t.phrases) {g : BeatGroup}
    (hg : g = ⟨k, first, others⟩)
    (hsplit : g.compound = false → g.count % 2 = 0 → ∃ k, g.count = Nat.pow 2 k)
    (htraced : first.1.Traced heading previous) (hidle : p.Idle)
    (hunit : p.unit = unitBehind heading previous) :
    ∃ p' : Pulse, p'.Idle ∧ p'.time = p.time + g.count * g.step ∧ p'.unit = first.1.effectiveUnit
      ∧ ∀ ts, hear p ((Stretch.group k first others).script (fun _ => none) ++ ts)
        = hear p first.1.keyFields ++ (hear p (first.1.changes previous)
          ++ (paced p.time g.step ((first.1 :: others.map (·.1)).map Row.sound) ++ hear p' ts)) := by
  have hscript : (Stretch.group k first others).script (fun _ => none)
      = first.1.keyFields ++ first.1.changes previous ++ g.script := by
    rw [h.script_group hs, htraced.led.directive.lexed_eq, hg]
  -- what the first row announces sets its unit
  have hafter : p.after (first.1.keyFields ++ first.1.changes previous)
      = { p with unit := first.1.effectiveUnit } := by
    rw [Pulse.after_append, after_keyFields, after_changes htraced.inUnit hunit]
  have hstep : g.pace first.1.effectiveUnit = g.step := by
    rw [BeatGroup.step_eq_pace hsplit, hg]
    rfl
  obtain ⟨hheard, hend⟩ := g.hear_script
    (show Pulse.Idle { p with unit := first.1.effectiveUnit } from hidle)
  refine ⟨{ p with unit := first.1.effectiveUnit, time := p.time + g.count * g.step }, hidle, rfl, rfl,
    fun ts => ?_⟩
  have hsounds : (first.1 :: others.map (·.1)).map Row.sound = g.members.map fun r => r.1.sound := by
    rw [hg, List.map_cons, List.map_map]
    rfl
  rw [hscript, hear_append, Pulse.after_append, hafter, hend, hear_append, hafter, hheard,
    hear_append, after_keyFields, hsounds, ← hstep, List.append_assoc, List.append_assoc]

/-- A beat, with what its first row announces. -/
theorem plays_group (h : t.Scored heading key)
    (hsplit : ∀ g ∈ t.beats, g.compound = false → g.count % 2 = 0 → ∃ k, g.count = Nat.pow 2 k)
    {k : BeatKey} {first : PlacedRow} {others : List PlacedRow}
    (hrest : t.Rest (Row.Traced heading) previous (.group k first others :: ss))
    (hmeets : Meets heading s e p previous)
    (hnext : ∀ {s e p c}, t.Rest (Row.Traced heading) c ss → Meets heading s e p c →
      PlaysRest t s e p ss) :
    PlaysRest t s e p (.group k first others :: ss) := by
  have hs := hrest.phrases _ List.mem_cons_self
  have hbeat := h.beat_of_phrase hs
  generalize hg : (⟨k, first, others⟩ : BeatGroup) = g at hbeat
  have hmembers : ∀ q ∈ first :: others, q ∈ g.members := fun q hq => hg ▸ hq
  have hrows : ∀ q ∈ first :: others, q.1.isRhythm = true ∧ q.1.Tuned
      ∧ Table.beatOf? t.beats q.1 = some g := fun q hq =>
    ⟨(beatKey?_eq_some.1 (hrest.group.1 q hq)).1, h.tuned_of_mem hbeat (hmembers q hq),
      Table.beatOf?_of_mem hbeat (hmembers q hq)⟩
  obtain ⟨hrhythm, htuned, hbeatOf⟩ := hrows first List.mem_cons_self
  have hsource : first.1.source = .lyric := source_of_isSpoken (isSpoken_of_isRhythm hrhythm)
  obtain ⟨hkey, hunit⟩ := traced_others hrest
  obtain ⟨hlinked, hmore⟩ := hrest.behind
  rw [show (Stretch.group k first others).members.map (·.1) = first.1 :: others.map (·.1) from rfl]
    at hlinked hmore
  rw [Linked.cons_of_pos hrhythm] at hlinked
  obtain ⟨htraced, hlater⟩ := hlinked
  obtain ⟨p', hidle, htime, hunit', hheard⟩ :=
    h.hear_group hs hg.symm (hsplit g hbeat) htraced hmeets.idle hmeets.unit
  have hcount : (g.count : Rat) = 1 + ((others.map (·.1)).length : Nat) := by
    rw [← hg, List.length_map]
    show ((others.length + 1 : Nat) : Rat) = _
    grind
  obtain ⟨hsounding, hstart⟩ := State.enter_keeps s first.1
  have henter : (s.enter first.1).enter first.1 = s.enter first.1 := by
    unfold State.enter
    cases first.1.key <;> rfl
  unfold PlaysRest
  rw [List.flatMap_cons, List.flatMap_cons, List.map_append, hheard, hmeets.time, ← hstart, ← hsounding]
  show Plays (play t.beats s (first.1 :: (others.map (·.1) ++ _))) _ _ _
  rw [play_enter t.beats s _ hsource]
  apply plays_keyFields
  apply plays_changes
  refine plays_row hrhythm htuned hbeatOf henter (hmeets.keeps.enter htraced.led.key) htraced.sustains
    fun s' e' hkeeps htime' => ?_
  rw [← htime']
  refine plays_rows (fun r hr => ?_) hkeeps (hlater.imp fun _ _ _ _ htraced => htraced.sustains)
    fun s'' e'' hkeeps' htime'' => ?_
  · obtain ⟨q, hq, rfl⟩ := List.mem_map.1 hr
    obtain ⟨hr, ht, hb⟩ := hrows q (List.mem_cons_of_mem _ hq)
    exact ⟨hr, ht, hb, hkey q hq⟩
  · refine hnext hmore ⟨?_, hidle, ?_, hunit'.trans hunit.symm⟩
    · rw [Linked.reverse_find?_cons, if_pos hrhythm]
      exact hkeeps'
    · rw [htime, htime'', htime', hstart, hmeets.time, hcount]
      grind

/-- From any phrase on, what is performed is what a listener hears of the drafts. -/
theorem plays_rest (h : t.Scored heading key)
    (hsplit : ∀ g ∈ t.beats, g.compound = false → g.count % 2 = 0 → ∃ k, g.count = Nat.pow 2 k)
    (hrest : t.Rest (Row.Traced heading) previous ss) (hmeets : Meets heading s e p previous) :
    PlaysRest t s e p ss := by
  induction ss generalizing s e p previous with
  | nil => exact Plays.nil s.sounding e
  | cons phrase ss ih =>
      cases phrase with
      | single q =>
          obtain ⟨hq, -, hbar, hmore⟩ := hrest.single h.laid
          exact h.plays_single hq hbar hmeets fun hmeets => ih hmore hmeets
      | group k first others => exact h.plays_group hsplit hrest hmeets ih

/-- What is performed of a scored table is what a listener hears of its drafts. -/
theorem play_draft (h : t.Scored heading key)
    (hsplit : ∀ g ∈ t.beats, g.compound = false → g.count % 2 = 0 → ∃ k, g.count = Nat.pow 2 k)
    (hsustains : Linked Row.isRhythm Row.Sustains none t) :
    ∃ events, play t.beats { alterations := .ofKey key } t = .ok events
      ∧ perform (.ofKey key.toList) (fuse false (hear
        { unit := (Lexer.length (unitText heading).toList).1 } t.draft)) = some events := by
  have htraced : Linked Row.isRhythm (Row.Traced heading) none t :=
    ((h.units.and h.led).and hsustains).imp fun _ _ _ _ hall => ⟨hall.1.1, hall.1.2, hall.2⟩
  have hstart : Meets heading { alterations := .ofKey key } (.ofKey key.toList)
      { unit := (Lexer.length (unitText heading).toList).1 } none :=
    ⟨⟨Follows.ofKey h.known, rfl⟩, ⟨rfl, rfl⟩, rfl, rfl⟩
  obtain ⟨events, hperform, hplay⟩ := h.plays_rest hsplit (Rest.start htraced) hstart
  have hspoken : (t.phrases.flatMap Stretch.members).map (·.1) = t.filter Row.isSpoken := by
    rw [flatMap_phrases, ← List.zipIdx_map_fst 0 t, List.filter_map, List.zipIdx_map_fst]
    rfl
  rw [hspoken, play_spoken _ _ fun r hr hsource hquiet => (h.unheard r hr hsource hquiet).2.1] at hplay
  exact ⟨events, hplay, hperform⟩

end Table.Scored

-- ============================================================== runs

theorem Row.sustains_textless (previous : Option Row) (r : Row) :
    Row.Sustains (previous.map Row.textless) r.textless ↔ Row.Sustains previous r := by
  cases previous <;> exact Iff.rfl

/-- The tune and the performance agree. For every text that runs to its end, with ties folded or
not, whose beats are split into parts that are odd in number, a power of two or compound, and whose
holds with a pitch each go on with a row that has one: the table can be performed, the tune that its
lyric rows write can be read, and a listener hears the notes of the performance, each at its pitch
and time and as long. -/
theorem performed?_run {text : String} {title : Option String} {fold : Bool} {result : Result}
    (h : run (.text text) { title := title, fold := fold } = .ok result)
    (hsplit : ∀ g ∈ result.table.beats, g.compound = false → g.count % 2 = 0 → ∃ k, g.count = Nat.pow 2 k)
    (hsustained : result.table.Sustained) :
    ∃ events, result.table.events = .ok events ∧ result.table.performed? = some events := by
  obtain ⟨heading, key, rows, folding, hscored, hties, -⟩ := scored_of_run h
  obtain ⟨texts, folding', hfold, hset, hheard⟩ := hscored.withTies_spec fold
  obtain ⟨htable, -⟩ := Prod.mk.inj (Except.ok.inj (hties.symm.trans hfold))
  rw [htable] at hsplit hsustained ⊢
  have hbeats : ∀ g ∈ rows.beats, g.compound = false → g.count % 2 = 0 → ∃ k, g.count = Nat.pow 2 k := by
    intro g hg
    obtain ⟨f, hf, hbeats⟩ := beats_withTexts rows texts
    obtain ⟨hcount, hunit, -⟩ := BeatGroup.mapRows_spec fun q (_ : q ∈ g.members) => hf q
    have hmapped := hsplit (g.mapRows f) (by rw [hbeats]; exact List.mem_map_of_mem hg)
    unfold BeatGroup.compound at hmapped ⊢
    rwa [hcount, hunit] at hmapped
  have hsustains : Linked Row.isRhythm Row.Sustains none rows := by
    refine linked_of_textless Row.sustains_textless (map_textless_withTexts rows texts).symm ?_
    exact linked_iff_rhythmBefore.2 fun p hp _ => hsustained p hp
  obtain ⟨events, hplay, hperform⟩ := hscored.play_draft hbeats hsustains
  have hkey : (rows.withTexts texts).field? "K" = some key :=
    (hset.field?_withTexts "K").trans hscored.keyField
  refine ⟨events, ?_, ?_⟩
  · have hopening : (rows.withTexts texts).openingKey = key := by
      unfold Table.openingKey
      rw [hkey]
      exact if_neg hscored.known.ne_empty
    unfold Table.events
    rw [hopening, play_withTexts, hplay]
  · unfold Table.performed?
    rw [hheard, hkey]
    exact hperform

/-- A triplet, a held note, a tie over a barline at which the key changes, and a change of unit. -/
def tiedText : String :=
  "la.la.la - | -.do | [8] re |\nK#1 f g a | K&2 ^b | #c"

/-- The run of the text, with two segments or an odd number of them in each beat. -/
def tiedRun : {result // run (.text tiedText) { title := none, fold := true } = .ok result
    ∧ (∀ g ∈ result.table.beats, g.count % 2 = 1 ∨ g.count = 2) ∧ result.table.Sustained} :=
  checked (by decide +kernel)

theorem performed?_run_tiedText :
    ∃ result, run (.text tiedText) { title := none, fold := true } = .ok result
      ∧ (∀ g ∈ result.table.beats, g.compound = false → g.count % 2 = 0 → ∃ k, g.count = Nat.pow 2 k)
      ∧ result.table.Sustained
      ∧ ∃ events, result.table.events = .ok events ∧ result.table.performed? = some events := by
  obtain ⟨result, hrun, hcounts, hsustained⟩ := tiedRun
  have hsplit : ∀ g ∈ result.table.beats, g.compound = false → g.count % 2 = 0 →
      ∃ k, g.count = Nat.pow 2 k := by
    intro g hg _ heven
    rcases hcounts g hg with hodd | htwo
    · omega
    · exact ⟨1, htwo⟩
  exact ⟨result, hrun, hsplit, hsustained, performed?_run hrun hsplit hsustained⟩

end LyricScore
