/-
What the text of a beat says. The notes of a beat are written one behind the other with nothing
between them, and yet `Fragment.decode?` gives each of them back from the characters alone: a rest
with its length, an attack with accidental, letter, octave and length, a hold with letter, octave
and length, and the numbers of the tuplet, if the beat opens one.

# Rows of any table

A row that is written as a rest may still have a letter or an octave: a rest has no use for them,
and a row without one of the two has no pitch. `Row.muted` takes them away. It leaves the text as it
is, and what is left is in tune if the letters exist, so beats are read by their scripts.
-/
import LyricScore.Proofs.Tune.Reading
import Mathlib.Data.List.Basic

namespace LyricScore

-- ========================================================== fragments

/-- A note as a beat writes it. -/
inductive WrittenNote where
  | rest (length : Rat)
  | attack (accidental : Accidental) (letter : Letter) (octave : Int) (length : Rat)
  /-- A note tied to the one before it. -/
  | hold (letter : Letter) (octave : Int) (length : Rat)
  deriving DecidableEq

/-- What the text of a beat says: the number of notes of its tuplet and whose time they take, and
its notes. -/
structure Fragment where
  tuplet : Option (Nat × Nat)
  notes : List WrittenNote
  deriving DecidableEq

/-- The notes that tokens write. -/
def notesOf? : List Token → Option (List WrittenNote)
  | [] => some []
  | .rest length :: ts => (notesOf? ts).map (.rest length :: ·)
  | .tie :: .note .plain letter octave length :: ts =>
    (notesOf? ts).map (.hold letter octave length :: ·)
  | .note accidental letter octave length :: ts =>
    (notesOf? ts).map (.attack accidental letter octave length :: ·)
  | _ => none

namespace Fragment

/-- The fragment that tokens write. A tuplet opens in front of its first note, behind the tie of
that note if it has one. -/
def ofTokens? : List Token → Option Fragment
  | .tuplet count time :: ts => (notesOf? ts).map fun notes => ⟨some (count, time), notes⟩
  | .tie :: .tuplet count time :: ts =>
    (notesOf? (.tie :: ts)).map fun notes => ⟨some (count, time), notes⟩
  | ts => (notesOf? ts).map fun notes => ⟨none, notes⟩

/-- The fragment that a text writes, read from its characters. -/
def decode? (text : String) : Option Fragment :=
  (tokens text.toList).bind ofTokens?

end Fragment

/-- The note that a row asks for. -/
def Row.writtenNote (r : Row) (length : Rat) : WrittenNote :=
  if r.kind = .rest then .rest length
  else
    match r.pitch? with
    | none => .rest length
    | some (letter, octave) =>
      if r.isHold then .hold letter octave length
      else .attack (r.accidental.getD .plain) letter octave length

/-- The fragment that a beat asks for. -/
def BeatGroup.written (g : BeatGroup) : Fragment where
  tuplet := if g.bracketed then some (g.count, splitDenominator g.count g.compound) else none
  notes := g.members.map fun p => p.1.writtenNote g.length

-- ============================================================ reading

namespace WrittenNote

/-- The tokens of a note; `opening` opens a tuplet. -/
def tokens (opening : List Token) : WrittenNote → List Token
  | rest length => opening ++ [.rest length]
  | attack accidental letter octave length => opening ++ [.note accidental letter octave length]
  | hold letter octave length => .tie :: opening ++ [.note .plain letter octave length]

end WrittenNote

theorem notesOf?_flatMap_tokens (notes : List WrittenNote) :
    notesOf? (notes.flatMap (·.tokens [])) = some notes := by
  induction notes with
  | nil => rfl
  | cons note notes ih => cases note <;> exact congrArg (Option.map _) ih

/-- Notes are read back from their tokens, with the tuplet that opens at the first one. -/
theorem Fragment.ofTokens?_tokens (tuplet : Option (Nat × Nat)) (note : WrittenNote)
    (notes : List WrittenNote) :
    ofTokens? (note.tokens ((tuplet.map fun n => .tuplet n.1 n.2).toList)
      ++ notes.flatMap (·.tokens [])) = some ⟨tuplet, note :: notes⟩ := by
  have hnotes := notesOf?_flatMap_tokens (note :: notes)
  cases tuplet <;> cases note <;>
    exact congrArg (Option.map fun notes => (⟨_, notes⟩ : Fragment)) hnotes

-- =============================================================== rows

/-- A row without the pitch that it does not write. -/
def Row.muted (r : Row) : Row :=
  if r.isSilent then { r with letter := none, octave := none } else r

theorem Row.muted_of_isSilent {r : Row} (h : r.isSilent = true) :
    r.muted = { r with letter := none, octave := none } :=
  if_pos h

theorem Row.muted_of_sings {r : Row} (h : r.isSilent = false) : r.muted = r :=
  if_neg (by simp [h])

/-- Muting a row leaves its text as it is. -/
theorem Row.encode_muted (r : Row) (length : Rat) (opening : String) :
    r.muted.encode length opening = r.encode length opening := by
  cases hsilent : r.isSilent with
  | false => rw [Row.muted_of_sings hsilent]
  | true =>
      have hmuted : ({ r with letter := none, octave := none } : Row).isSilent = true := by
        simp [Row.isSilent, Row.hasPitch]
      rw [Row.muted_of_isSilent hsilent]
      unfold Row.encode
      rw [if_pos hmuted, if_pos hsilent]

/-- The letter of a row exists, if the row has a pitch. -/
def Row.Lettered (r : Row) : Prop :=
  r.hasPitch = true → ∃ letter : Letter, r.letter = some letter.name

/-- A row is written as a rest, or it sings a letter that exists. -/
theorem Row.Lettered.silent_or_sings {r : Row} (h : r.Lettered) :
    (r.isSilent = true ∧ ∀ length, r.writtenNote length = .rest length)
      ∨ ∃ letter octave, r.isSilent = false ∧ r.kind ≠ .rest ∧ r.letter = some letter.name
          ∧ r.octave = some octave ∧ r.pitch? = some (letter, octave) := by
  by_cases hkind : r.kind = .rest
  · left
    exact ⟨by simp [Row.isSilent, hkind], fun _ => if_pos hkind⟩
  · cases hpitch : r.hasPitch with
    | false =>
        have hnone : r.pitch? = none := by
          unfold Row.pitch?
          split
          · next hletter hoctave => simp [Row.hasPitch, hletter, hoctave] at hpitch
          · rfl
        left
        refine ⟨by simp [Row.isSilent, hpitch], fun length => ?_⟩
        unfold Row.writtenNote
        rw [if_neg hkind, hnone]
    | true =>
        obtain ⟨letter, hletter⟩ := h hpitch
        simp only [Row.hasPitch, Bool.and_eq_true] at hpitch
        obtain ⟨octave, hoctave⟩ := Option.isSome_iff_exists.1 hpitch.2
        right
        refine ⟨letter, octave, ?_, hkind, hletter, hoctave, ?_⟩
        · simp [Row.isSilent, Row.hasPitch, hletter, hoctave, hkind]
        · simp [Row.pitch?, hletter, hoctave, ofName?_name]

/-- A muted row is in tune. -/
theorem Row.Lettered.tuned_muted {r : Row} (h : r.Lettered) : r.muted.Tuned := by
  rcases h.silent_or_sings with ⟨hsilent, -⟩ | ⟨letter, octave, hsings, hkind, hletter, hoctave, -⟩
  · rw [Row.muted_of_isSilent hsilent]
    exact ⟨rfl, fun name hname => absurd hname (Option.not_mem_none name), fun _ => rfl⟩
  · rw [Row.muted_of_sings hsings]
    refine ⟨by rw [hletter, hoctave]; rfl, fun name hname => ⟨letter, ?_⟩, fun h => absurd h hkind⟩
    exact Option.some.inj (hname.symm.trans hletter)

/-- A muted row reads as the note that the row asks for. -/
theorem Row.Lettered.script_muted {r : Row} (h : r.Lettered) (length : Rat) (opening : List Token) :
    r.muted.script length opening = (r.writtenNote length).tokens opening := by
  rcases h.silent_or_sings with ⟨hsilent, hrest⟩ | ⟨letter, octave, hsings, hkind, -, -, hpitch⟩
  · rw [Row.muted_of_isSilent hsilent, hrest]
    rfl
  · rw [Row.muted_of_sings hsings]
    unfold Row.script Row.writtenNote Row.writtenAccidental
    rw [if_neg hkind, hpitch]
    cases r.isHold <;> rfl

-- ============================================================== beats

namespace BeatGroup

/-- A beat with muted rows. -/
def muted (g : BeatGroup) : BeatGroup :=
  g.mapRows fun p => p.1.muted

theorem members_muted (g : BeatGroup) : g.muted.members = g.members.map fun p => (p.1.muted, p.2) :=
  rfl

/-- Muting rows takes nothing from the time of their beat. -/
theorem muted_spec (g : BeatGroup) :
    g.muted.count = g.count ∧ g.muted.unit = g.unit ∧ g.muted.duration = g.duration := by
  refine ⟨count_mapRows _ g, ?_, ?_⟩
  · show g.first.1.muted.effectiveUnit = _
    unfold Row.muted
    split <;> rfl
  · show g.first.1.muted.effectiveDuration = _
    unfold Row.muted
    split <;> rfl

theorem length_muted (g : BeatGroup) : g.muted.length = g.length :=
  length_mapRows g.muted_spec.2.1 g.muted_spec.2.2

theorem fragment_muted (g : BeatGroup) : g.muted.fragment = g.fragment := by
  have hopening : g.muted.opening = g.opening := opening_mapRows g.muted_spec.2.1
  unfold fragment
  rw [members_muted, List.map_map]
  congr 1
  refine List.map_congr_left fun p _ => ?_
  show p.1.muted.encode g.muted.length (if p.2 = g.first.2 then g.muted.opening else "") = _
  rw [Row.encode_muted, length_muted, hopening]
  rfl

/-- The text of a beat reads as what the beat asks for. -/
theorem decode?_fragment {g : BeatGroup} (hplaces : g.members.Pairwise fun p q => p.2 < q.2)
    (hletters : ∀ p ∈ g.members, p.1.Lettered) (hduration : 0 < g.duration) :
    Fragment.decode? g.fragment = some g.written := by
  obtain ⟨hcount, hunit, -⟩ := g.muted_spec
  have hread : Reads g.fragment g.muted.script := by
    rw [← fragment_muted]
    refine reads_fragment ?_ (fun p hp => ?_) ?_
    · rw [members_muted]
      exact List.pairwise_map.2 hplaces
    · rw [members_muted] at hp
      obtain ⟨q, hq, rfl⟩ := List.mem_map.1 hp
      exact (hletters q hq).tuned_muted
    · rw [length_muted]
      exact splitLength_pos g.count g.unit hduration
  have hbracket : g.muted.bracket = (g.written.tuplet.map fun n => .tuplet n.1 n.2).toList := by
    unfold bracket written bracketed compound
    rw [hcount, hunit]
    split <;> rfl
  have hscript : g.muted.script
      = (g.first.1.writtenNote g.length).tokens (g.written.tuplet.map fun n => .tuplet n.1 n.2).toList
        ++ (g.others.map fun p => p.1.writtenNote g.length).flatMap (·.tokens []) := by
    obtain ⟨hfirst, hothers⟩ := List.forall_mem_cons.1 hletters
    unfold script
    rw [length_muted, hbracket, List.flatMap_map]
    refine congrArg₂ (· ++ ·) (hfirst.script_muted _ _) ?_
    show (g.others.map fun p => (p.1.muted, p.2)).flatMap _ = _
    rw [List.flatMap_map]
    exact List.flatMap_congr fun p hp => (hothers p hp).script_muted _ _
  unfold Fragment.decode?
  rw [hread.tokens_eq, Option.bind_some, hscript, Fragment.ofTokens?_tokens]
  rfl

end BeatGroup

-- ============================================================= tables

/-- The note encoder writes every beat so that it can be read back: the text on the first row of a
beat decodes to what the beat asks for, the rows behind it carry none, and the texts of the rows one
behind the other are the same text. -/
theorem Table.decode?_withNotes {t : Table}
    (hletters : ∀ r ∈ t, r.isRhythm = true → r.Lettered)
    (hdurations : ∀ r ∈ t, r.isRhythm = true → ∀ d ∈ r.duration, 0 < d)
    (hfits : ∀ g ∈ t.beats, lengthFits g.length = true) :
    ∃ t', t.withNotes = .ok t' ∧ ∀ g ∈ t.beats, ∃ text notes,
      (t'[g.first.2]?).bind (·.draftText) = some text
        ∧ Fragment.decode? text = some g.written
        ∧ (∀ p ∈ g.others, (t'[p.2]?).bind (·.draftText) = some "")
        ∧ (g.members.map fun p => (t'[p.2]?).bind (·.noteText)) = notes.map some
        ∧ String.join notes = text := by
  refine ⟨t.withNotesText, if_pos (List.all_eq_true.2 hfits), fun g hg => ?_⟩
  have hrows := fun p hp => getElem?_withNotesText hg (p := p) hp
  have hplaces := Table.pairwise_members hg
  refine ⟨g.fragment, g.members.map g.token, ?_, ?_, fun p hp => ?_, ?_, rfl⟩
  · rw [hrows g.first List.mem_cons_self]
    exact congrArg some (if_pos rfl)
  · apply g.decode?_fragment hplaces
    · intro p hp
      obtain ⟨hmem, hrhythm⟩ := Table.isRhythm_of_mem_beat hg hp
      exact hletters p.1 hmem hrhythm
    · obtain ⟨hmem, hrhythm⟩ := Table.isRhythm_of_mem_beat hg List.mem_cons_self
      exact Row.effectiveDuration_pos (hdurations g.first.1 hmem hrhythm)
  · have hlater := (List.pairwise_cons.1 hplaces).1 p hp
    rw [hrows p (List.mem_cons_of_mem _ hp)]
    exact congrArg some (if_neg (Nat.ne_of_gt hlater))
  · rw [List.map_map]
    refine List.map_congr_left fun p hp => ?_
    rw [hrows p hp]
    rfl

/-- Five rows of one beat and a row of another between them: a tie in front of the tuplet, marks on
both sides of the letters, a rest that still has a pitch, and a row with an octave only. -/
def tiedTuplet : Table :=
  let row (kind : Kind) (letter : Option String) (octave : Option Int) : Row :=
    { source := .lyric, block := 1, kind := kind, measure := some 1, beat := some 1,
      duration := some (3 / 2), letter := letter, octave := octave }
  [row .tie (some "c") (some 1),
   { row .attack (some "f") (some 6) with accidental := some .doubleSharp },
   { row .syllable (some "d") (some 4) with beat := some 2 },
   row .rest (some "g") (some 5),
   row .syllable none (some 5),
   row .hold (some "b") (some 3)]

theorem Table.decode?_withNotes_tiedTuplet :
    ∃ t', tiedTuplet.withNotes = .ok t'
      ∧ (t'[0]?).bind (·.draftText) = some "-(5:4C,,,3/8^^f\x273/8z3/8z3/8-B,3/8"
      ∧ Fragment.decode? "-(5:4C,,,3/8^^f\x273/8z3/8z3/8-B,3/8"
        = some ⟨some (5, 4), [.hold .c 1 (3 / 8), .attack .doubleSharp .f 6 (3 / 8), .rest (3 / 8),
          .rest (3 / 8), .hold .b 3 (3 / 8)]⟩ := by
  have hletters : ∀ r ∈ tiedTuplet, r.isRhythm = true → r.Lettered := by
    simp only [tiedTuplet, List.forall_mem_cons]
    refine ⟨fun _ _ => ⟨.c, rfl⟩, fun _ _ => ⟨.f, rfl⟩, fun _ _ => ⟨.d, rfl⟩, fun _ _ => ⟨.g, rfl⟩,
      fun _ hpitch => absurd hpitch (by decide), fun _ _ => ⟨.b, rfl⟩, ?_⟩
    exact fun r hr => absurd hr List.not_mem_nil
  obtain ⟨t', hnotes, hbeats⟩ :=
    Table.decode?_withNotes hletters (by decide +kernel) (by decide +kernel)
  have htext : (tiedTuplet.withNotes.toOption.bind (·[0]?)).bind (·.draftText)
      = some "-(5:4C,,,3/8^^f\x273/8z3/8z3/8-B,3/8" := by decide +kernel
  have hbeat : ∃ g ∈ tiedTuplet.beats, g.first.2 = 0 ∧ g.written = ⟨some (5, 4),
      [.hold .c 1 (3 / 8), .attack .doubleSharp .f 6 (3 / 8), .rest (3 / 8), .rest (3 / 8),
        .hold .b 3 (3 / 8)]⟩ := by decide +kernel
  obtain ⟨g, hg, hplace, hwritten⟩ := hbeat
  obtain ⟨text, -, hdraft, hdecode, -⟩ := hbeats g hg
  rw [hplace] at hdraft
  rw [hwritten] at hdecode
  rw [hnotes] at htext
  obtain rfl := Option.some.inj (hdraft.symm.trans htext)
  exact ⟨t', hnotes, hdraft, hdecode⟩

end LyricScore
