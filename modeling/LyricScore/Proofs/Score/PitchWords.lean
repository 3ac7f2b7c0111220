/-
Words of pitches. Pitches stand in a word without anything between them, and the reader takes one
after the other from the front. A text starts with one pitch at most, so there is nothing to choose:
whatever pitches spell the front of a word, the reader goes through these first. Hence a word is
read exactly if some pitches spell it, no others do, and where reading stops short, what is left
stands behind the longest front that can be spelled.
-/
import LyricScore.Proofs.Score.Words

namespace LyricScore

/-- Pitches that the format can express, whose texts one behind the other are a text. -/
structure Spell (ps : List Pitch) (cs : List Char) : Prop where
  wellFormed : ∀ p ∈ ps, p.WellFormed
  texts : ps.flatMap (·.text.toList) = cs

namespace Spell

variable {ps qs : List Pitch} {p : Pitch} {cs rest left : List Char}

theorem nil : Spell [] [] :=
  ⟨fun _ hp => absurd hp List.not_mem_nil, rfl⟩

theorem cons (hp : p.WellFormed) (h : Spell ps cs) : Spell (p :: ps) (p.text.toList ++ cs) := by
  refine ⟨List.forall_mem_cons.2 ⟨hp, h.wellFormed⟩, ?_⟩
  rw [List.flatMap_cons, h.texts]

theorem of_cons (h : Spell (p :: ps) cs) :
    p.WellFormed ∧ ∃ rest, cs = p.text.toList ++ rest ∧ Spell ps rest := by
  obtain ⟨hp, hps⟩ := List.forall_mem_cons.1 h.wellFormed
  exact ⟨hp, _, h.texts.symm, hps, rfl⟩

/-- Where no pitch can be read behind some pitches, no other pitches spell a longer front. -/
theorem prefix_of_stuck {read other : List Char} (hread : Spell ps read)
    (hstuck : Reader.pitch? left = none) (hother : Spell qs other)
    (hfront : other <+: read ++ left) : other <+: read := by
  induction qs generalizing ps read other with
  | nil =>
      obtain rfl := hother.texts
      exact List.nil_prefix
  | cons q qs ih =>
      obtain ⟨hq, more, rfl, hmore⟩ := hother.of_cons
      obtain ⟨behind, hbehind⟩ := hfront
      rw [List.append_assoc] at hbehind
      have hfirst : Reader.pitch? (read ++ left) = some (q, more ++ behind) :=
        Reader.pitch?_eq_some.2 ⟨hq, hbehind.symm⟩
      cases ps with
      | nil =>
          -- the front is spelled by no pitch at all, yet one more can be read
          obtain rfl := hread.texts
          rw [List.flatMap_nil, List.nil_append, hstuck] at hfirst
          cases hfirst
      | cons p ps =>
          obtain ⟨hp, later, rfl, hlater⟩ := hread.of_cons
          rw [List.append_assoc] at hfirst
          have hsame := (Reader.pitch?_eq_some.2 ⟨hp, rfl⟩).symm.trans hfirst
          obtain ⟨rfl, hrest⟩ := Prod.mk.inj (Option.some.inj hsame)
          have htail : more <+: later := ih hlater hmore ⟨behind, hrest.symm⟩
          exact (List.prefix_append_right_inj _).2 htail

end Spell

namespace Reader

variable {cs left : List Char}

theorem pitches_eq_ok_iff_spell {ps : List Pitch} : pitches cs = .ok ps ↔ Spell ps cs := by
  rw [pitches_eq_ok]
  exact ⟨fun h => ⟨h.1, h.2.symm⟩, fun h => ⟨h.1, h.2.symm⟩⟩

/-- Where reading stops: behind some pitches, at a place where no pitch can be read. -/
theorem exists_of_pitches_eq_error (h : pitches cs = .error left) :
    pitch? left = none ∧ ∃ ps read, Spell ps read ∧ cs = read ++ left := by
  fun_induction pitches cs with
  | case1 => cases h
  | case2 c tail hnone =>
      obtain rfl := Except.error.inj h
      exact ⟨hnone, [], [], Spell.nil, rfl⟩
  | case3 c tail p rest hp left' hleft ih =>
      obtain rfl := Except.error.inj h
      obtain ⟨hform, htext⟩ := pitch?_eq_some.1 hp
      obtain ⟨hstuck, ps, read, hread, rfl⟩ := ih hleft
      refine ⟨hstuck, p :: ps, _, hread.cons hform, ?_⟩
      rw [htext, List.append_assoc]
  | case4 c tail p rest hp more hmore ih => cases h

/-- The longest front of a text that pitches spell. -/
structure LongestSpelled (cs read : List Char) : Prop where
  front : read <+: cs
  spelled : ∃ ps, Spell ps read
  longest : ∀ ps other, Spell ps other → other <+: cs → other.length ≤ read.length

theorem longestSpelled_of_pitches_eq_error (h : pitches cs = .error left) :
    ∃ read, cs = read ++ left ∧ LongestSpelled cs read := by
  obtain ⟨hstuck, ps, read, hread, rfl⟩ := exists_of_pitches_eq_error h
  refine ⟨read, rfl, List.prefix_append read left, ⟨ps, hread⟩, fun qs other hother hfront => ?_⟩
  exact (hread.prefix_of_stuck hstuck hother hfront).length_le

/-- A text has one longest front. -/
theorem LongestSpelled.unique {read read' : List Char} (h : LongestSpelled cs read)
    (h' : LongestSpelled cs read') : read = read' := by
  obtain ⟨ps, hps⟩ := h.spelled
  obtain ⟨qs, hqs⟩ := h'.spelled
  have hle := h'.longest ps read hps h.front
  have hge := h.longest qs read' hqs h'.front
  exact (List.prefix_of_prefix_length_le h.front h'.front hle).eq_of_length_le hge

/-- How a word of pitches is read. It is read as some pitches exactly if they spell it, and then no
others do; it fails exactly if none spell it, with what stands behind the longest front that pitches
spell. The complaint about a word of a pitch line has that text. -/
theorem pitches_reads_longest_front (word : String) :
    (∀ ps, pitches word.toList = .ok ps ↔ Spell ps word.toList)
      ∧ (∀ ps qs, Spell ps word.toList → Spell qs word.toList → ps = qs)
      ∧ (∀ left, pitches word.toList = .error left
        ↔ (¬ ∃ ps, Spell ps word.toList)
          ∧ ∃ read, word.toList = read ++ left ∧ LongestSpelled word.toList read)
      ∧ ∀ line left, word ≠ "|" → word.toList.head? ≠ some 'K' →
        pitches word.toList = .error left →
        pitchWord line word.toList = .error (.line .unknownPitch line (String.ofList left)) := by
  refine ⟨fun ps => pitches_eq_ok_iff_spell, fun ps qs hps hqs => ?_, fun left => ?_,
    fun line left hbar hkey hleft => ?_⟩
  · rw [← pitches_eq_ok_iff_spell] at hps hqs
    exact Except.ok.inj (hps.symm.trans hqs)
  · constructor
    · intro h
      refine ⟨fun hspelled => ?_, longestSpelled_of_pitches_eq_error h⟩
      obtain ⟨ps, hps⟩ := hspelled
      rw [pitches_eq_ok_iff_spell.2 hps] at h
      cases h
    · rintro ⟨hnone, read, hcut, hlongest⟩
      cases hread : pitches word.toList with
      | ok ps => exact absurd ⟨ps, pitches_eq_ok_iff_spell.1 hread⟩ hnone
      | error left' =>
          obtain ⟨read', hcut', hlongest'⟩ := longestSpelled_of_pitches_eq_error hread
          obtain rfl := hlongest.unique hlongest'
          rw [List.append_cancel_left (hcut.symm.trans hcut')]
  · have hword : word.toList ≠ ['|'] := by
      intro h
      exact hbar (String.toList_injective h)
    unfold pitchWord
    rw [if_neg hword, keySignature?_of_head? hkey]
    dsimp only
    rw [if_neg hkey, hleft]

/-- Shifts, two sharps and a letter, then flats without a letter: reading stops at the flats. -/
example : pitches "^/##ca&&".toList = .error "&&".toList := by
  cbv

end Reader

end LyricScore
