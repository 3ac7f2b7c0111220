/-
Scripts: the tokens that rows and beats write. A row reads as a note or a rest, a beat as its rows
behind the opening of a tuplet, if it has one.

A beat is heard as the sounds of its rows at an even pace, each as long as its written length
says, scaled by the tuplet.
-/
import LyricScore.Proofs.Table.Frame
import LyricScore.Proofs.Table.Splits
import LyricScore.Proofs.Tune.Glyph
import LyricScore.Proofs.Tune.Hearing

namespace LyricScore

open Text Lexer

-- ============================================================== rows

/-- The letter and octave that a row sings. -/
def Row.pitch? (r : Row) : Option (Letter × Int) :=
  match r.letter, r.octave with
  | some name, some octave => (Letter.ofName? name).map fun letter => (letter, octave)
  | _, _ => none

/-- The accidental that a row writes; a hold writes none. -/
def Row.writtenAccidental (r : Row) : Accidental :=
  if r.isHold then .plain else r.accidental.getD .plain

/-- The tokens of a row of the given length; `opening` opens a tuplet. -/
def Row.script (r : Row) (length : Rat) (opening : List Token) : List Token :=
  match r.pitch? with
  | none => opening ++ [.rest length]
  | some (letter, octave) =>
    (if r.isHold then [.tie] else []) ++ opening ++ [.note r.writtenAccidental letter octave length]

/-- What is heard of a row. -/
def Row.sound (r : Row) : Sound :=
  match r.pitch? with
  | none => .rest
  | some (letter, octave) => .note r.isHold r.writtenAccidental letter octave

theorem ofName?_name (letter : Letter) : Letter.ofName? letter.name = some letter := by
  cases letter <;> rfl

/-- A row is silent, or it sings a letter that exists. -/
theorem Row.Tuned.silent_or_sings {r : Row} (h : r.Tuned) :
    (r.isSilent = true ∧ r.pitch? = none ∧ r.hasPitch = false)
      ∨ ∃ letter octave, r.isSilent = false ∧ r.pitch? = some (letter, octave)
          ∧ r.letter = some letter.name ∧ r.octave = some octave := by
  have hboth := h.both
  cases hletter : r.letter with
  | none =>
      left
      simp [Row.isSilent, Row.hasPitch, Row.pitch?, hletter]
  | some name =>
      right
      obtain ⟨letter, rfl⟩ := h.letter name hletter
      rw [hletter] at hboth
      obtain ⟨octave, hoctave⟩ := Option.isSome_iff_exists.1 hboth.symm
      have hkind : r.kind ≠ .rest := fun hkind => by
        rw [h.silent hkind] at hletter
        cases hletter
      refine ⟨letter, octave, ?_, ?_, rfl, hoctave⟩
      · simp [Row.isSilent, Row.hasPitch, hletter, hoctave, hkind]
      · simp [Row.pitch?, hletter, hoctave, ofName?_name]

/-- A row writes no fields. -/
theorem isField_script {r : Row} {length : Rat} {opening : List Token}
    (h : ∀ t ∈ opening, t.isField = false) : ∀ t ∈ r.script length opening, t.isField = false := by
  unfold Row.script
  cases r.pitch? with
  | none => exact List.forall_mem_append.2 ⟨h, List.forall_mem_singleton.2 rfl⟩
  | some tone =>
      refine List.forall_mem_append.2
        ⟨List.forall_mem_append.2 ⟨?_, h⟩, List.forall_mem_singleton.2 rfl⟩
      cases r.isHold with
      | true => exact List.forall_mem_singleton.2 rfl
      | false => exact fun _ ht => absurd ht List.not_mem_nil

theorem Row.Tuned.reads_encode {r : Row} (h : r.Tuned) {length : Rat} (hlength : 0 < length)
    {opening : String} {ts : List Token} (hopening : Reads opening ts)
    (hts : ∀ t ∈ ts, t.isField = false) : Reads (r.encode length opening) (r.script length ts) := by
  unfold Row.encode Row.script
  rcases h.silent_or_sings with ⟨hsilent, hpitch, -⟩ | ⟨letter, octave, hsings, hpitch, hl, ho⟩
  · rw [if_pos hsilent, hpitch, String.append_assoc]
    exact hopening.append hts (Reads.rest hlength)
  · have hnote := Reads.note r.writtenAccidental letter octave hlength
    rw [if_neg (by simp [hsings]), hpitch]
    simp only [Row.writtenAccidental, Row.pitchText, hl, ho, Option.getD_some] at hnote ⊢
    split at hnote
    · next hhold =>
      simp only [if_pos hhold]
      rw [String.append_assoc]
      exact (Reads.tie.append (List.forall_mem_singleton.2 rfl) hopening).append
        (List.forall_mem_cons.2 ⟨rfl, hts⟩) hnote
    · next hhold =>
      have hread := hopening.append hts hnote
      simp only [if_neg hhold, List.nil_append]
      simpa only [String.append_assoc] using hread

/-- A pulse between two beats: no tuplet is open and no tie is written. -/
def Pulse.Idle (p : Pulse) : Prop :=
  p.factors = [] ∧ p.tied = false

/-- A row is heard as one sound. -/
theorem hear_script (r : Row) (length : Rat) {p : Pulse} (h : p.tied = false) :
    hear p (r.script length []) = [⟨p.time, p.lasting length, r.sound⟩]
      ∧ p.after (r.script length []) = p.pass length := by
  unfold Row.script Row.sound
  cases r.pitch? with
  | none => exact ⟨rfl, rfl⟩
  | some pitch =>
      cases r.isHold with
      | true => exact ⟨rfl, rfl⟩
      | false =>
          refine ⟨?_, rfl⟩
          show [(⟨p.time, p.lasting length, .note p.tied _ _ _⟩ : Heard)] = _
          rw [h]

/-- The opening of a tuplet may stand behind the tie of its first note. -/
theorem hear_script_tuplet (r : Row) (length : Rat) (count time : Nat) (p : Pulse) :
    hear p (r.script length [.tuplet count time])
        = hear (p.step (.tuplet count time)) (r.script length [])
      ∧ p.after (r.script length [.tuplet count time])
        = (p.step (.tuplet count time)).after (r.script length []) := by
  unfold Row.script
  cases r.pitch? with
  | none => exact ⟨rfl, rfl⟩
  | some pitch => cases r.isHold <;> exact ⟨rfl, rfl⟩

-- ============================================================= beats

/-- Sounds at an even pace. -/
def paced (time pace : Rat) : List Sound → List Heard
  | [] => []
  | sound :: rest => ⟨time, pace, sound⟩ :: paced (time + pace) pace rest

/-- The opening of a split is read back. That of three says no time, and means two. -/
theorem Reads.of_needsTuplet {count : Nat} {compound : Bool}
    (h : needsTuplet count compound = true) :
    Reads (tupletOpening count (splitDenominator count compound))
      [.tuplet count (splitDenominator count compound)] := by
  refine Reads.tuplet fun hthree => ?_
  rw [hthree, (needsTuplet_natCast.1 h).2.2]
  decide

namespace BeatGroup

/-- The tuplet that a beat opens. -/
def bracket (g : BeatGroup) : List Token :=
  if g.bracketed then [.tuplet g.count (splitDenominator g.count g.compound)] else []

theorem bracket_cases (g : BeatGroup) :
    g.bracket = [] ∨ ∃ count time, g.bracket = [.tuplet count time] := by
  unfold bracket
  split
  · exact Or.inr ⟨_, _, rfl⟩
  · exact Or.inl rfl

/-- How the tuplet of a beat scales its rows. -/
def scale (g : BeatGroup) : Rat :=
  if g.bracketed then (splitDenominator g.count g.compound : Rat) / (g.count : Rat) else 1

/-- The tokens of a beat. -/
def script (g : BeatGroup) : List Token :=
  g.first.1.script g.length g.bracket ++ g.others.flatMap fun p => p.1.script g.length []

/-- The time of each row of a beat in a unit, in quarter notes. -/
def pace (g : BeatGroup) (unit : Rat) : Rat :=
  g.length * g.scale * unit * 4

theorem reads_opening (g : BeatGroup) : Reads g.opening g.bracket := by
  unfold opening bracket
  cases hbracketed : g.bracketed with
  | false => exact Reads.empty
  | true => exact Reads.of_needsTuplet hbracketed

theorem isField_bracket (g : BeatGroup) : ∀ t ∈ g.bracket, t.isField = false := by
  unfold bracket
  cases g.bracketed with
  | true => exact List.forall_mem_singleton.2 rfl
  | false => exact fun _ ht => absurd ht List.not_mem_nil

/-- A beat with rows in the order of their places reads as its rows, the first one behind the
opening. -/
theorem reads_fragment {g : BeatGroup} (hplaces : g.members.Pairwise fun p q => p.2 < q.2)
    (htuned : ∀ p ∈ g.members, p.1.Tuned) (hlength : 0 < g.length) :
    Reads g.fragment g.script := by
  obtain ⟨hfirst, hothers⟩ := List.forall_mem_cons.1 htuned
  have hlater := (List.pairwise_cons.1 hplaces).1
  have hnone : ∀ t ∈ ([] : List Token), t.isField = false := fun _ ht => absurd ht List.not_mem_nil
  unfold fragment script members
  rw [List.map_cons, String.join_cons]
  refine Reads.append ?_ (isField_script g.isField_bracket)
    (Reads.join (fun p hp => ?_) fun p _ => isField_script hnone)
  · unfold token
    rw [if_pos rfl]
    exact hfirst.reads_encode hlength g.reads_opening g.isField_bracket
  · unfold token
    rw [if_neg (Nat.ne_of_gt (hlater p hp))]
    exact (hothers p hp).reads_encode hlength Reads.empty hnone

/-- Rows of one length under one factor are heard at an even pace. -/
theorem hear_rows (length factor : Rat) (rows : List Row) {p : Pulse} (htied : p.tied = false)
    (hfactors : p.factors = [] ∧ factor = 1 ∨ p.factors = .replicate rows.length factor) :
    hear p (rows.flatMap fun r => r.script length [])
        = paced p.time (length * factor * p.unit * 4) (rows.map Row.sound)
      ∧ p.after (rows.flatMap fun r => r.script length [])
        = { p with
            time := p.time + rows.length * (length * factor * p.unit * 4)
            factors := [] } := by
  induction rows generalizing p with
  | nil =>
      obtain ⟨unit, time, factors, tied⟩ := p
      obtain rfl : factors = [] := hfactors.elim (fun h => h.1) fun h => h
      refine ⟨rfl, ?_⟩
      simp only [List.length_nil, Pulse.mk.injEq, List.flatMap_nil, Pulse.after, List.foldl_nil]
      grind
  | cons r rows ih =>
      obtain ⟨hhear, hafter⟩ := hear_script r length htied
      -- the row takes the first factor, and the others are left for those behind it
      have hlasting : p.lasting length = length * factor * p.unit * 4 := by
        unfold Pulse.lasting
        rcases hfactors with ⟨hnone, rfl⟩ | hmore
        · rw [hnone]
          rfl
        · rw [hmore]
          rfl
      have htail : (p.pass length).factors = [] ∧ factor = 1
          ∨ (p.pass length).factors = .replicate rows.length factor := by
        show p.factors.tail = [] ∧ factor = 1 ∨ p.factors.tail = _
        rcases hfactors with ⟨hnone, rfl⟩ | hmore
        · left
          rw [hnone]
          exact ⟨rfl, rfl⟩
        · right
          rw [hmore]
          rfl
      obtain ⟨hrows, hend⟩ := @ih (p.pass length) rfl htail
      rw [List.flatMap_cons, hear_append, Pulse.after_append, hhear, hafter, hrows, hend]
      have hpass : (p.pass length).time = p.time + length * factor * p.unit * 4 := by
        show p.time + p.lasting length = _
        rw [hlasting]
      rw [hpass, hlasting]
      refine ⟨rfl, ?_⟩
      obtain ⟨unit, time, factors, tied⟩ := p
      obtain rfl := htied
      simp only [Pulse.pass, Pulse.mk.injEq, List.length_cons, true_and, and_true]
      grind

/-- A beat is heard as its rows at an even pace. -/
theorem hear_script (g : BeatGroup) {p : Pulse} (h : p.Idle) :
    hear p g.script = paced p.time (g.pace p.unit) (g.members.map fun r => r.1.sound)
      ∧ p.after g.script = { p with time := p.time + g.count * g.pace p.unit } := by
  obtain ⟨hfactors, htied⟩ := h
  have hrows : g.script = g.first.1.script g.length g.bracket
      ++ (g.others.map (·.1)).flatMap fun r => r.script g.length [] := by
    rw [List.flatMap_map]
    rfl
  -- the opening acts on the pulse before the first row
  have hopened : hear p g.script = hear (p.after g.bracket)
        ((g.members.map (·.1)).flatMap fun r => r.script g.length [])
      ∧ p.after g.script = (p.after g.bracket).after
        ((g.members.map (·.1)).flatMap fun r => r.script g.length []) := by
    show _ = hear _ (_ ++ _) ∧ _ = Pulse.after _ (_ ++ _)
    rw [hrows, hear_append, hear_append, Pulse.after_append, Pulse.after_append]
    unfold bracket
    split
    · obtain ⟨hhear, hafter⟩ := hear_script_tuplet g.first.1 g.length g.count
        (splitDenominator g.count g.compound) p
      rw [hhear, hafter]
      exact ⟨rfl, rfl⟩
    · exact ⟨rfl, rfl⟩
  have hscale : (p.after g.bracket).factors = [] ∧ g.scale = 1
      ∨ (p.after g.bracket).factors = .replicate (g.members.map (·.1)).length g.scale := by
    rw [List.length_map]
    unfold bracket scale
    split
    · exact Or.inr rfl
    · exact Or.inl ⟨hfactors, rfl⟩
  have hkeeps : (p.after g.bracket).tied = false ∧ (p.after g.bracket).time = p.time
      ∧ (p.after g.bracket).unit = p.unit := by
    unfold bracket
    split <;> exact ⟨htied, rfl, rfl⟩
  obtain ⟨hhear, hafter⟩ := hear_rows g.length g.scale (g.members.map (·.1)) hkeeps.1 hscale
  rw [hopened.1, hopened.2, hhear, hafter, List.map_map, hkeeps.2.1, hkeeps.2.2, hkeeps.1,
    List.length_map]
  refine ⟨rfl, ?_⟩
  rw [hfactors, htied]
  rfl

end BeatGroup

end LyricScore
