/-
What tidying keeps. Music lines are tidied by rules that look at any text whatever, and each of them
does one of two things: it puts in or takes out a blank, or it moves a tie to another place. So every
other character stays, in its order, and the ties stay as many as they were, in a line and in the
lines of a tune taken together.

`Rearranged` says this of two texts. It is kept by putting texts one behind the other, so each rule is
dealt with at the place where it acts.
-/
import LyricScore.Proofs.Text.Split
import LyricScore.Tune.Assembly

namespace LyricScore

open Text

-- ======================================================== rearranged

/-- The characters of a text that are neither blanks nor ties. -/
def residue (cs : List Char) : List Char :=
  cs.filter fun c => !isBlank c && c != '-'

/-- Texts that differ in nothing but their blanks and the places of their ties. -/
structure Rearranged (cs ds : List Char) : Prop where
  residue : residue cs = residue ds
  ties : cs.count '-' = ds.count '-'

namespace Rearranged

variable {cs ds es fs : List Char}

theorem refl (cs : List Char) : Rearranged cs cs :=
  ⟨rfl, rfl⟩

theorem symm (h : Rearranged cs ds) : Rearranged ds cs :=
  ⟨h.residue.symm, h.ties.symm⟩

theorem trans (h : Rearranged cs ds) (h' : Rearranged ds es) : Rearranged cs es :=
  ⟨h.residue.trans h'.residue, h.ties.trans h'.ties⟩

theorem append (h : Rearranged cs ds) (h' : Rearranged es fs) : Rearranged (cs ++ es) (ds ++ fs) where
  residue := by
    unfold LyricScore.residue
    rw [List.filter_append, List.filter_append]
    exact (congrArg (_ ++ ·) h'.residue).trans (congrArg (· ++ _) h.residue)
  ties := by rw [List.count_append, List.count_append, h.ties, h'.ties]

theorem append_left (cs : List Char) (h : Rearranged ds es) : Rearranged (cs ++ ds) (cs ++ es) :=
  (refl cs).append h

theorem append_right (h : Rearranged cs ds) (es : List Char) : Rearranged (cs ++ es) (ds ++ es) :=
  h.append (refl es)

theorem cons (c : Char) (h : Rearranged cs ds) : Rearranged (c :: cs) (c :: ds) :=
  h.append_left [c]

theorem reverse (h : Rearranged cs ds) : Rearranged cs.reverse ds.reverse where
  residue := by
    unfold LyricScore.residue
    rw [List.filter_reverse, List.filter_reverse]
    exact congrArg List.reverse h.residue
  ties := by rw [List.count_reverse, List.count_reverse, h.ties]

theorem flatMap {α : Type} {f g : α → List Char} {l : List α} (h : ∀ a ∈ l, Rearranged (f a) (g a)) :
    Rearranged (l.flatMap f) (l.flatMap g) := by
  induction l with
  | nil => exact refl []
  | cons a l ih =>
      obtain ⟨ha, hl⟩ := List.forall_mem_cons.1 h
      rw [List.flatMap_cons, List.flatMap_cons]
      exact ha.append (ih hl)

/-- A blank does not count. -/
theorem blank {c : Char} (hc : isBlank c = true) (cs : List Char) : Rearranged (c :: cs) cs where
  residue := List.filter_cons_of_neg (by simp [hc])
  ties := by
    refine List.count_cons_of_ne ?_
    rintro rfl
    exact absurd hc (by decide)

/-- A tie may stand before or behind some text. -/
theorem tie (cs ds : List Char) : Rearranged ('-' :: (cs ++ ds)) (cs ++ '-' :: ds) where
  residue := by
    unfold LyricScore.residue
    rw [List.filter_append, List.filter_cons_of_neg (by simp), List.filter_cons_of_neg (by simp),
      List.filter_append]
  ties := by
    rw [List.count_append, List.count_cons_self, List.count_cons_self, List.count_append]
    omega

end Rearranged

-- ============================================================ blanks

/-- The parts of a list between the elements that it is cut at have all the others. -/
theorem flatten_splitWhere {α : Type} (p : α → Bool) (l : List α) :
    (splitWhere p l).flatten = l.filter fun a => !p a := by
  induction l with
  | nil => rfl
  | cons a l ih =>
      cases ha : p a with
      | true =>
          rw [splitWhere_cons_of_pos ha, List.flatten_cons, ih, List.filter_cons_of_neg (by simp [ha])]
          rfl
      | false =>
          obtain ⟨part, parts, hparts⟩ := List.exists_cons_of_ne_nil (splitWhere_ne_nil p l)
          rw [splitWhere_cons_of_neg ha hparts, List.filter_cons_of_pos (by simp [ha]), ← ih, hparts]
          rfl

theorem Rearranged.filter (cs : List Char) : Rearranged (cs.filter fun c => !isBlank c) cs := by
  induction cs with
  | nil => exact refl []
  | cons c cs ih =>
      cases hc : isBlank c with
      | true =>
          rw [List.filter_cons_of_neg (by simp [hc])]
          exact ih.trans (blank hc cs).symm
      | false =>
          rw [List.filter_cons_of_pos (by simp [hc])]
          exact ih.cons c

/-- Texts with spaces between them. -/
theorem rearranged_joinWith (texts : List (List Char)) :
    Rearranged (joinWith [' '] texts) texts.flatten := by
  induction texts with
  | nil => exact .refl []
  | cons text texts ih =>
      cases texts with
      | nil =>
          rw [joinWith_singleton, List.flatten_singleton]
          exact .refl text
      | cons text' texts =>
          rw [joinWith_cons_cons, List.flatten_cons]
          exact ((Rearranged.blank (by decide) _).trans ih).append_left text

theorem rearranged_squeeze (cs : List Char) : Rearranged (squeeze cs) cs := by
  have hwords : (words cs).flatten = cs.filter fun c => !isBlank c := by
    unfold words partsBetween
    rw [List.flatten_filter_not_isEmpty, flatten_splitWhere]
  have hjoined := rearranged_joinWith (words cs)
  rw [hwords] at hjoined
  exact hjoined.trans (.filter cs)

theorem rearranged_dropWhile (cs : List Char) : Rearranged (cs.dropWhile isBlank) cs := by
  induction cs with
  | nil => exact .refl []
  | cons c cs ih =>
      cases hc : isBlank c with
      | true =>
          rw [List.dropWhile_cons_of_pos hc]
          exact ih.trans (Rearranged.blank hc cs).symm
      | false =>
          rw [List.dropWhile_cons_of_neg (by simp [hc])]
          exact .refl _

theorem rearranged_trim (cs : List Char) : Rearranged (trim cs) cs := by
  have hback := (rearranged_dropWhile (cs.dropWhile isBlank).reverse).reverse
  rw [List.reverse_reverse] at hback
  exact hback.trans (rearranged_dropWhile cs)

-- ============================================================= lines

namespace Line

theorem rearranged_closeBars (cs : List Char) : Rearranged (closeBars cs) cs := by
  induction cs with
  | nil => exact .refl []
  | cons c cs ih =>
      unfold closeBars
      split
      · next hspace =>
        rw [hspace.1]
        exact ih.trans (Rearranged.blank (by decide) cs).symm
      · exact ih.cons c

theorem rearranged_openBars (cs : List Char) : Rearranged (openBars cs) cs := by
  induction cs with
  | nil => exact .refl []
  | cons c cs ih =>
      unfold openBars
      split
      · next hbar =>
        rw [hbar.1]
        exact ((Rearranged.blank (by decide) _).trans ih).cons '|'
      · exact ih.cons c

/-- Where a tie is moved over a gap, the gap and the tie are still there. -/
theorem rearranged_attachTies (previous : Option Char) (cs : List Char) :
    Rearranged (attachTies previous cs) cs := by
  fun_induction attachTies previous cs with
  | case1 previous => exact .refl []
  | case2 previous c rest gap hmove ih =>
      have htie : (c :: rest).drop gap = '-' :: rest.drop gap := by
        obtain ⟨more, hmore⟩ := List.head?_eq_some_iff.1 hmove.2.2
        have htail : (c :: rest).drop (gap + 1) = more := by
          rw [← List.tail_drop, hmore]
          rfl
        rw [hmore, ← htail]
        rfl
      have hmoved := Rearranged.tie ((c :: rest).take gap) (rest.drop gap)
      rw [← htie, List.take_append_drop] at hmoved
      exact ((ih.append_left ((c :: rest).take gap)).cons '-').trans hmoved
  | case3 previous c rest gap hmove ih => exact ih.cons c

theorem rearranged_tidy (cs : List Char) : Rearranged (tidy cs) cs :=
  (rearranged_squeeze _).trans <| (rearranged_attachTies none _).trans <|
    (rearranged_openBars _).trans <| (rearranged_closeBars _).trans (rearranged_squeeze cs)

/-- What a line gives up is one tie. -/
theorem rearranged_of_withoutOpeningTie? {cs ds : List Char} (h : withoutOpeningTie? cs = some ds) :
    Rearranged ('-' :: ds) cs := by
  unfold withoutOpeningTie? at h
  dsimp only at h
  split at h
  · next htie =>
    obtain ⟨rest, hrest⟩ := List.head?_eq_some_iff.1 htie
    have hbehind : cs.drop (openingLength cs + 1) = rest := by
      rw [← List.drop_drop, hrest]
      rfl
    have hmoved := Rearranged.tie (cs.take (openingLength cs)) rest
    rw [← hrest, List.take_append_drop] at hmoved
    rw [hbehind] at h
    obtain rfl := Option.some.inj h
    exact ((rearranged_trim _).cons '-').trans hmoved
  · cases h

/-- What a line takes is one tie. -/
theorem rearranged_of_tieLast? {previous : Option Char} {cs ds : List Char}
    (h : tieLast? previous cs = some ds) : Rearranged ds ('-' :: cs) := by
  induction cs generalizing previous ds with
  | nil =>
      unfold tieLast? at h
      split at h
      · obtain rfl := Option.some.inj h
        exact .refl _
      · cases h
  | cons c cs ih =>
      unfold tieLast? at h
      split at h
      · obtain rfl := Option.some.inj h
        exact .refl _
      · obtain ⟨es, hes, rfl⟩ := Option.map_eq_some_iff.1 h
        exact ((ih hes).cons c).trans (Rearranged.tie [c] cs).symm

theorem rearranged_carryFrom (last : List Char) (lines : List (List Char)) :
    Rearranged (carryFrom last lines).flatten (last ++ lines.flatten) := by
  induction lines generalizing last with
  | nil => exact .refl _
  | cons line lines ih =>
      rw [List.flatten_cons]
      unfold carryFrom
      split
      · next line' last' hline hlast =>
        -- the tie that one line takes is the one that the other gives up
        have hmoved : Rearranged (last' ++ line') (last ++ line) :=
          ((rearranged_of_tieLast? hlast).append_right line').trans <|
            (Rearranged.tie last line').trans
              ((rearranged_of_withoutOpeningTie? hline).append_left last)
        rw [List.flatten_cons]
        have hrest := (ih line').append_left last'
        rw [← List.append_assoc] at hrest ⊢
        exact hrest.trans (hmoved.append_right _)
      · rw [List.flatten_cons]
        exact (ih line).append_left last

/-- Only ties go from one line to another. -/
theorem map_residue_carryFrom (last : List Char) (lines : List (List Char)) :
    (carryFrom last lines).map residue = residue last :: lines.map residue := by
  induction lines generalizing last with
  | nil => rfl
  | cons line lines ih =>
      unfold carryFrom
      split
      · next line' last' hline hlast =>
        have hline : residue line' = residue line := (rearranged_of_withoutOpeningTie? hline).residue
        have hlast : residue last' = residue last := (rearranged_of_tieLast? hlast).residue
        rw [List.map_cons, ih line', hline, hlast, List.map_cons]
      · rw [List.map_cons, ih line, List.map_cons]

theorem map_residue_carryTies (lines : List (List Char)) :
    (carryTies lines).map residue = lines.map residue := by
  cases lines with
  | nil => rfl
  | cons line lines => exact map_residue_carryFrom line lines

theorem rearranged_carryTies (lines : List (List Char)) :
    Rearranged (carryTies lines).flatten lines.flatten := by
  cases lines with
  | nil => exact .refl []
  | cons line lines => exact rearranged_carryFrom line lines

end Line

-- ============================================================ tables

/-- What the lyric rows of a block announce and write, one behind the other. -/
def Table.blockText (t : Table) (block : Int) : List Char :=
  (t.filter fun r => decide (r.source = .lyric ∧ r.block = block)).flatMap fun r =>
    r.directive.toList ++ r.text.toList

theorem Table.flatMap_toList_musicPieces (r : Row) :
    (musicPieces r).flatMap String.toList = r.directive.toList ++ r.text.toList := by
  unfold musicPieces
  by_cases hdirective : r.directive = "" <;> by_cases htext : r.text = "" <;>
    simp [hdirective, htext]

theorem Table.rearranged_blockMusic (t : Table) (block : Int) :
    Rearranged (t.blockMusic block) (t.blockText block) := by
  unfold blockMusic blockText
  refine (rearranged_joinWith _).trans ?_
  rw [← List.flatMap_def, List.flatMap_assoc, funext flatMap_toList_musicPieces]
  exact .refl _

theorem Table.rearranged_musicLines (t : Table) :
    Rearranged (t.musicLines.flatMap String.toList) (t.lyricBlocks.flatMap t.blockText) := by
  have htidied : Rearranged (t.lyricBlocks.flatMap fun block => Line.tidy (t.blockMusic block))
      (t.lyricBlocks.flatMap t.blockText) :=
    .flatMap fun block _ => (Line.rearranged_tidy _).trans (t.rearranged_blockMusic block)
  have hlines : t.musicLines.flatMap String.toList
      = (Line.carryTies ((t.lyricBlocks.map fun block => Line.tidy (t.blockMusic block)).filter
          fun line => !line.isEmpty)).flatten := by
    unfold musicLines
    simp [List.flatMap_map, List.flatMap_id']
  rw [hlines]
  refine (Line.rearranged_carryTies _).trans ?_
  rw [List.flatten_filter_not_isEmpty, ← List.flatMap_def]
  exact htidied

/-- Nothing of the music is lost, doubled or put in another order. What is neither a blank nor a tie
stands in the lines of every table as its lyric rows announce and write it, block by block, and there
are as many ties; and the same is so for any text that is tidied and for any lines whose opening ties
are moved. -/
theorem music_conserved :
    (∀ t : Table,
        Rearranged (t.musicLines.flatMap String.toList) (t.lyricBlocks.flatMap t.blockText))
      ∧ (∀ cs : List Char, Rearranged (Line.tidy cs) cs)
      ∧ ∀ lines : List (List Char), Rearranged (Line.carryTies lines).flatten lines.flatten :=
  ⟨Table.rearranged_musicLines, Line.rearranged_tidy, Line.rearranged_carryTies⟩

/-- Two ties in a row, the second of which stays where it is. -/
example : Line.tidy "C | --D".toList = "C-| -D".toList := by decide +kernel

end LyricScore
