/-
Ties handed over. A tie that opens a line is moved to the line before it. Walking along the lines,
each of them may first lose its own tie and then gain that of the next one; still, what becomes of
a line can be told from the line itself and its two neighbours as they were before the walk
(`settled`), since losing a tie does not change what a line ends on.

# Rests

The line before takes the tie if it ends, but for a gap, with a character that can end a note. A
rest of one unit is written without a length and ends with its letter, so it takes no tie. A rest of
another length ends with a digit or a stroke, and so it does take one (`takesTie`).
-/
import LyricScore.Proofs.Tune.Carry
import LyricScore.Proofs.Tune.Neat
import Mathlib.Data.List.DropRight

namespace LyricScore

open Text

variable {gs line : List Glyph} {g : Glyph}

namespace Glyph

-- ========================================================= last sounds

/-- Whether a tie is put behind a glyph that ends a line. -/
def takesTie : Glyph → Bool
  | .token (.note _ _ _ _) => true
  | .token (.rest length) => length != 1
  | _ => false

/-- Whether a glyph is a note or a rest. -/
def isSound : Glyph → Bool
  | .token (.note _ _ _ _) | .token (.rest _) => true
  | _ => false

/-- The last note or rest of a line. -/
def lastSound? (gs : List Glyph) : Option Glyph :=
  (gs.filter isSound).getLast?

/-- The last glyph of a line that belongs to no gap. -/
def lastSolid? (gs : List Glyph) : Option Glyph :=
  (gs.filter (! ·.isGap)).getLast?

/-- A line with a tie right behind its last note or rest. -/
def tieEnd (gs : List Glyph) : List Glyph :=
  gs.rdropWhile (! ·.isSound) ++ .token .tie :: gs.rtakeWhile (! ·.isSound)

/-- Whether a line opens with a tie, behind any fields. -/
def opensTied (gs : List Glyph) : Bool :=
  (gs.drop (openingFields gs).length).head? == some (.token .tie)

/-- A line without the tie that opens it. -/
def untie (gs : List Glyph) : List Glyph :=
  openingFields gs ++ (gs.drop (openingFields gs).length).tail

/-- A line is split at its last glyph that belongs to no gap. -/
theorem exists_of_lastSolid? (h : lastSolid? gs = some g) :
    ∃ front gap, gs = front ++ g :: gap ∧ g.isGap = false ∧ ∀ g' ∈ gap, g'.isGap = true := by
  unfold lastSolid? at h
  induction gs using List.reverseRecOn with
  | nil => cases h
  | append_singleton gs last ih =>
      rw [List.filter_append] at h
      cases hgap : last.isGap with
      | true =>
          have hnone : [last].filter (! ·.isGap) = [] := by simp [hgap]
          rw [hnone, List.append_nil] at h
          obtain ⟨front, gap, rfl, hsolid, hgaps⟩ := ih h
          refine ⟨front, gap ++ [last], by simp, hsolid, ?_⟩
          exact List.forall_mem_append.2 ⟨hgaps, List.forall_mem_singleton.2 hgap⟩
      | false =>
          have hself : [last].filter (! ·.isGap) = [last] := by simp [hgap]
          rw [hself, List.getLast?_concat] at h
          obtain rfl := Option.some.inj h
          exact ⟨gs, [], rfl, hgap, by simp⟩

/-- No gap has a note or a rest. -/
theorem isSound_of_isGap (h : g.isGap = true) : g.isSound = false := by
  cases g with
  | space => rfl
  | token t =>
      cases t with
      | note | rest => cases h
      | _ => rfl

theorem tieEnd_append {front gap : List Glyph} (hsound : g.isSound = true)
    (hgap : ∀ g' ∈ gap, g'.isGap = true) :
    tieEnd (front ++ g :: gap) = front ++ g :: .token .tie :: gap := by
  unfold tieEnd
  induction gap using List.reverseRecOn with
  | nil =>
      have hneg : ¬ (!g.isSound) = true := by simp [hsound]
      rw [List.rdropWhile_concat_neg (fun g : Glyph => !g.isSound) _ _ hneg,
        List.rtakeWhile_concat_neg (fun g : Glyph => !g.isSound) _ _ hneg]
      simp
  | append_singleton gap last ih =>
      obtain ⟨hgaps, hlast⟩ := List.forall_mem_append.1 hgap
      have hpos : (!last.isSound) = true := by
        simp [isSound_of_isGap (hlast last (List.mem_singleton_self last))]
      rw [← List.cons_append, ← List.append_assoc,
        List.rdropWhile_concat_pos (fun g : Glyph => !g.isSound) _ _ hpos,
        List.rtakeWhile_concat_pos (fun g : Glyph => !g.isSound) _ _ hpos, ← List.cons_append,
        ← List.append_assoc, ih hgaps]
      simp

theorem isGap_of_lastSolid? (h : lastSolid? gs = none) : ∀ g ∈ gs, g.isGap = true := by
  unfold lastSolid? at h
  rw [List.getLast?_eq_none_iff, List.filter_eq_nil_iff] at h
  simpa using h

/-- A rest ends like a note if its length is written. -/
theorem Plain.endsNote_eq (h : g.Plain) (hopens : g.opens = false) : g.endsNote = g.takesTie := by
  cases g with
  | space => rfl
  | token t =>
      cases t with
      | bar => rfl
      | field name value => exact h.endsNote_of_isGap (Token.Plain.isGap_field h)
      | tie | tuplet => cases hopens
      | note a letter octave q =>
          obtain ⟨-, c, hlast, hends⟩ := Token.ink_note a letter octave h
          unfold endsNote
          rw [Glyph.chars, hlast]
          exact hends
      | rest q =>
          have hq : 0 < q := h
          have hchars : (Glyph.token (.rest q)).chars = 'z' :: (lengthText q).toList := by
            show ("z" ++ lengthText q).toList = _
            rw [String.toList_append]
            rfl
          unfold endsNote takesTie
          rw [hchars, List.getLast?_cons]
          by_cases hone : q = 1
          · subst hone
            rfl
          · have hne : (lengthText q).toList ≠ [] := by
              -- no text is the length one
              intro hnil
              have hfresh : Lexer.Fresh [] := fun c hc => by cases hc
              have hread := Lexer.length_lengthText hq hfresh
              have hunit := Lexer.length_lengthText (show (0 : Rat) < 1 by decide) hfresh
              rw [hnil] at hread
              exact hone (congrArg Prod.fst (hread.symm.trans hunit))
            rw [List.getLast?_eq_some_getLast hne, Option.getD_some]
            exact (ink_lengthText hq (List.getLast_mem hne)).2.trans (bne_iff_ne.2 hone).symm

end Glyph

open Glyph

-- ========================================================= neat lines

theorem Thin.of_append {front : List Glyph} (h : Thin (front ++ gs)) : Thin gs := by
  induction front with
  | nil => exact h
  | cons g front ih => exact ih h.2

theorem Fast.of_append {front : List Glyph} (h : Fast (front ++ gs)) : Fast gs := by
  induction front with
  | nil => exact h
  | cons g front ih => exact ih h.2

theorem Thin.append_of_head {front hs : List Glyph} (h : Thin (front ++ gs)) (hhs : Thin hs)
    (hhead : hs.head? ≠ some .space) : Thin (front ++ hs) := by
  induction front with
  | nil => exact hhs
  | cons g front ih =>
      refine ⟨fun hg => ?_, ih h.2⟩
      cases front with
      | nil => exact hhead
      | cons g' front => exact h.1 hg

theorem trim_spell_eq (hplain : ∀ g ∈ gs, g.Plain) (hhead : gs.head? ≠ some .space)
    (hlast : gs.getLast? ≠ some .space) : trim (spell gs) = spell gs := by
  obtain ⟨front, hs, back, rfl, hfront, hback, htrim⟩ := trim_spell hplain
  have hfrontNil : front = [] := by
    cases front with
    | nil => rfl
    | cons g front =>
        obtain rfl := hfront g List.mem_cons_self
        exact absurd rfl hhead
  have hbackNil : back = [] := by
    by_contra hne
    refine hlast ?_
    rw [← List.append_assoc, List.getLast?_append, List.getLast?_eq_some_getLast hne, Option.some_or,
      hback _ (List.getLast_mem hne)]
  rw [htrim, hfrontNil, hbackNil, List.nil_append, List.append_nil]

/-- What is next behind a gap does not depend on what comes later. -/
theorem head?_dropWhile_append_cons (front : List Glyph) (hsolid : g.isGap = false)
    (hs hs' : List Glyph) :
    ((front ++ g :: hs).dropWhile isGap).head? = ((front ++ g :: hs').dropWhile isGap).head? := by
  induction front with
  | nil =>
      have hneg : ¬ g.isGap = true := by simp [hsolid]
      rw [List.nil_append, List.nil_append, List.dropWhile_cons_of_neg hneg,
        List.dropWhile_cons_of_neg hneg]
      rfl
  | cons g' front ih =>
      rw [List.cons_append, List.cons_append, List.dropWhile_cons, List.dropWhile_cons]
      split
      · exact ih
      · rfl

theorem Fast.tie_behind {front gap : List Glyph} (hsolid : g.isGap = false)
    (h : Fast (front ++ g :: gap)) : Fast (front ++ g :: .token .tie :: gap) := by
  induction front with
  | nil => exact ⟨fun _ _ => rfl, fun hends => absurd hends (by decide), h.2⟩
  | cons g' front ih =>
      refine ⟨fun hends htie => ?_, ih h.2⟩
      have hhead := h.1 hends
      rw [List.append_eq, head?_dropWhile_append_cons front hsolid _ gap] at htie
      have hnext := hhead htie
      cases front with
      | nil => exact hnext
      | cons g'' front => exact hnext

/-- A line that has got a tie behind what it ends on is neat. -/
theorem Neat.tie_behind {front gap : List Glyph} (hsolid : g.isGap = false)
    (hink : g.isInked = true) (h : Neat (front ++ g :: gap)) :
    Neat (front ++ g :: .token .tie :: gap) := by
  have hspace : g ≠ .space := by
    rintro rfl
    cases hink
  obtain ⟨hfront, htail⟩ := List.forall_mem_append.1 h.plain
  obtain ⟨hg, hgap⟩ := List.forall_mem_cons.1 htail
  obtain ⟨hchain, hbehind, hmeet⟩ := List.isChain_append.1 h.ruled
  refine ⟨?_, ?_, ?_, ?_, ?_, h.fast.tie_behind hsolid⟩
  · refine List.forall_mem_append.2 ⟨hfront, List.forall_mem_cons.2 ⟨hg, ?_⟩⟩
    exact List.forall_mem_cons.2 ⟨trivial, hgap⟩
  · refine h.thin.append_of_head ⟨fun heq => absurd heq hspace, by simp, h.thin.of_append.2⟩ ?_
    exact fun heq => hspace (Option.some.inj heq)
  · cases front with
    | nil => exact h.head
    | cons g' front => exact h.head
  · have hlast := h.last
    rw [List.getLast?_append, List.getLast?_cons, Option.some_or] at hlast ⊢
    rw [List.getLast?_cons, Option.getD_some]
    cases hgaps : gap.getLast? with
    | none => simp
    | some last =>
        rw [hgaps] at hlast
        exact hlast
  · refine List.isChain_append.2 ⟨hchain, ?_, hmeet⟩
    refine List.isChain_cons_cons.2 ⟨.of_isInked hink _, ?_⟩
    exact List.isChain_cons.2 ⟨fun next _ => .tie next, (List.isChain_cons.1 hbehind).2⟩

/-- What a closed line ends on. -/
theorem isSound_of_lastSolid? (hplain : ∀ g ∈ gs, g.Plain) (hclosed : Closed gs)
    (h : lastSolid? gs = some g) : g.isSound = true ∧ g.opens = false := by
  obtain ⟨front, gap, rfl, hsolid, hgap⟩ := exists_of_lastSolid? h
  have hopens := Closed.opens_eq_false (fun g hg => hplain g (by simp [hg])) hgap hclosed
  refine ⟨?_, hopens⟩
  cases g with
  | space => cases hsolid
  | token t =>
      cases t with
      | bar => cases hsolid
      | field name value =>
          have hfield : (Token.field name value).Plain := hplain (.token (.field name value)) (by simp)
          rw [show (Glyph.token (.field name value)).isGap = true from hfield.isGap_field] at hsolid
          cases hsolid
      | tie | tuplet => cases hopens
      | _ => rfl

/-- Behind the last note or rest of a closed line there is but a gap. -/
theorem lastSound?_eq_lastSolid? (hplain : ∀ g ∈ gs, g.Plain) (hclosed : Closed gs) :
    lastSound? gs = lastSolid? gs := by
  have hsilent : ∀ {gap : List Glyph}, (∀ g ∈ gap, g.isGap = true) → gap.filter isSound = [] :=
    fun hgap => List.filter_eq_nil_iff.2 fun g hg => by simp [isSound_of_isGap (hgap g hg)]
  cases hsolid : lastSolid? gs with
  | none =>
      unfold lastSound?
      rw [hsilent (isGap_of_lastSolid? hsolid)]
      rfl
  | some g =>
      obtain ⟨hsound, -⟩ := isSound_of_lastSolid? hplain hclosed hsolid
      obtain ⟨front, gap, rfl, -, hgap⟩ := exists_of_lastSolid? hsolid
      unfold lastSound?
      rw [List.filter_append, List.filter_cons_of_pos hsound, hsilent hgap, List.getLast?_concat]

theorem isInked_of_isSound (h : g.isSound = true) : g.isInked = true := by
  cases g with
  | space => cases h
  | token t =>
      cases t with
      | note | rest => rfl
      | _ => cases h

/-- A line gets a tie behind the note that it ends on, or the rest whose length is written. -/
theorem tieLast?_spell (hplain : ∀ g ∈ gs, g.Plain) (hclosed : Closed gs) :
    Line.tieLast? none (spell gs)
      = if (lastSound? gs).any takesTie then some (spell (tieEnd gs)) else none := by
  rw [lastSound?_eq_lastSolid? hplain hclosed]
  cases hlast : lastSolid? gs with
  | none => exact tieLast?_gap hplain (isGap_of_lastSolid? hlast) rfl
  | some g =>
      obtain ⟨hsound, hopens⟩ := isSound_of_lastSolid? hplain hclosed hlast
      obtain ⟨front, gap, rfl, hsolid, hgap⟩ := exists_of_lastSolid? hlast
      have hg : g.Plain := hplain g (by simp)
      obtain ⟨hchars, c, hc, hends⟩ := hg.inked_chars (isInked_of_isSound hsound)
      rw [tieLast?_behind hplain hgap hsolid hchars hc, hends, hg.endsNote_eq hopens,
        tieEnd_append hsound hgap, Option.any_some]

/-- A neat line stays neat with a tie behind the note or rest that it ends on. -/
theorem Neat.tieEnd (h : Neat gs) (hclosed : Closed gs) (hlast : lastSound? gs = some g) :
    Neat (tieEnd gs) := by
  rw [lastSound?_eq_lastSolid? h.plain hclosed] at hlast
  obtain ⟨hsound, -⟩ := isSound_of_lastSolid? h.plain hclosed hlast
  obtain ⟨front, gap, rfl, hsolid, hgap⟩ := exists_of_lastSolid? hlast
  rw [tieEnd_append hsound hgap]
  exact h.tie_behind hsolid (isInked_of_isSound hsound)

theorem eq_of_opensTied (h : opensTied gs = true) :
    ∃ post, gs = openingFields gs ++ .token .tie :: post ∧ untie gs = openingFields gs ++ post := by
  obtain ⟨post, hpost⟩ := List.head?_eq_some_iff.1 (beq_iff_eq.1 h)
  refine ⟨post, ?_, ?_⟩
  · rw [← hpost, openingFields_append_drop]
  · unfold untie
    rw [hpost, List.tail_cons]

namespace MusicLine

theorem of_neaten (hsame : neaten gs = gs) (hplain : ∀ g ∈ gs, g.Plain) (hheld : Held gs) :
    MusicLine gs :=
  hsame ▸ musicLine_neaten hplain hheld

/-- What is right behind the tie that opens a line. -/
theorem exists_behind (h : MusicLine gs) {post : List Glyph}
    (hpost : gs = openingFields gs ++ .token .tie :: post) :
    ∃ next, post.head? = some next ∧ next.isInked = true := by
  refine h.opening post ?_
  conv => lhs; rw [hpost]
  rw [List.dropWhile_append_of_pos (isGap_openingFields h.plain)]
  rfl

/-- A line that has lost its tie is neat, and it ends as before. -/
theorem untie (h : MusicLine gs) (htied : opensTied gs = true) :
    Neat (untie gs) ∧ Glyph.untie gs ≠ [] ∧ Closed (Glyph.untie gs)
      ∧ lastSound? (Glyph.untie gs) = lastSound? gs := by
  obtain ⟨post, hpost, huntie⟩ := eq_of_opensTied htied
  obtain ⟨next, hnext, hink⟩ := h.exists_behind hpost
  have hgap := isGap_openingFields h.plain
  rw [huntie]
  generalize openingFields gs = fields at hpost hgap
  subst hpost
  obtain ⟨hfields, htail⟩ := List.forall_mem_append.1 h.plain
  have hplain := (List.forall_mem_cons.1 htail).2
  have hmem : next ∈ post := List.mem_of_head? hnext
  have hspace : post.head? ≠ some .space := by
    rw [hnext]
    rintro ⟨⟩
    cases hink
  obtain ⟨hchain, hbehind, hmeet⟩ := List.isChain_append.1 h.ruled
  refine ⟨⟨?_, ?_, ?_, ?_, ?_, ?_⟩, ?_, ?_, ?_⟩
  · exact List.forall_mem_append.2 ⟨hfields, hplain⟩
  · exact h.thin.append_of_head h.thin.of_append.2 hspace
  · cases fields with
    | nil => exact hspace
    | cons g fields => exact h.head
  · have hlast := h.last
    have hne : post ≠ [] := List.ne_nil_of_mem hmem
    rw [List.getLast?_append, List.getLast?_cons] at hlast
    rw [List.getLast?_append]
    rwa [List.getLast?_eq_some_getLast hne] at hlast ⊢
  · refine List.isChain_append.2 ⟨hchain, (List.isChain_cons.1 hbehind).2, ?_⟩
    intro last hlast first hfirst
    rw [hnext] at hfirst
    obtain rfl := Option.some.inj hfirst
    exact (hmeet last hlast _ rfl).isInked_of_tie hink
  · exact .gap_append hfields hgap h.fast.of_append.2
  · exact List.append_ne_nil_of_right_ne_nil _ (List.ne_nil_of_mem hmem)
  · exact .gap_append hgap (Closed.of_append h.closing).2
  · unfold lastSound?
    rw [List.filter_append, List.filter_append, List.filter_cons_of_neg (by decide)]

end MusicLine

/-- A music line gives up the tie that opens it. -/
theorem MusicLine.withoutOpeningTie?_spell (h : MusicLine gs) :
    Line.withoutOpeningTie? (spell gs)
      = if opensTied gs then some (spell (Glyph.untie gs)) else none := by
  split
  · next htied =>
    obtain ⟨hneat, -⟩ := h.untie htied
    obtain ⟨post, hpost, huntie⟩ := eq_of_opensTied htied
    rw [(LyricScore.withoutOpeningTie?_spell h.plain).1 post hpost, ← huntie,
      trim_spell_eq hneat.plain hneat.head hneat.last]
  · next htied =>
    refine (LyricScore.withoutOpeningTie?_spell h.plain).2 fun post hpost => htied ?_
    unfold opensTied
    rw [List.append_cancel_left ((openingFields_append_drop gs).trans hpost)]
    rfl

-- ============================================================ settled

namespace Glyph

/-- Whether a line hands the tie that opens it to the line before, where `takes` says on what that
line must end. -/
def hands (takes : Glyph → Bool) (previous line : List Glyph) : Bool :=
  opensTied line && (lastSound? previous).any takes

/-- A line without its tie, if it hands that over. -/
def loosened (takes : Glyph → Bool) (previous : Option (List Glyph)) (line : List Glyph) :
    List Glyph :=
  if previous.any (hands takes · line) then untie line else line

/-- Lines as their neighbours leave them: each without the tie that it hands over, and with the tie
that the next one hands to it. -/
def settled (takes : Glyph → Bool) : Option (List Glyph) → List (List Glyph) → List (List Glyph)
  | _, [] => []
  | previous, line :: rest =>
    (if rest.head?.any (hands takes line) then tieEnd (loosened takes previous line)
      else loosened takes previous line) :: settled takes (some line) rest

end Glyph

/-- A line that may have lost its tie is neat and ends as before. -/
theorem MusicLine.loosened (h : MusicLine line) (takes : Glyph → Bool)
    (previous : Option (List Glyph)) :
    Neat (loosened takes previous line) ∧ (line ≠ [] → Glyph.loosened takes previous line ≠ [])
      ∧ Closed (Glyph.loosened takes previous line)
      ∧ lastSound? (Glyph.loosened takes previous line) = lastSound? line := by
  unfold Glyph.loosened
  split
  · next hany =>
    cases previous with
    | none => cases hany
    | some last =>
        obtain ⟨hneat, hne, hkept⟩ := h.untie (Bool.and_eq_true_iff.1 hany).1
        exact ⟨hneat, fun _ => hne, hkept⟩
  · exact ⟨h.toNeat, id, h.closing, rfl⟩

theorem carryFrom_spell (previous : Option (List Glyph)) {rest : List (List Glyph)}
    (h : MusicLine line) (hrest : ∀ next ∈ rest, MusicLine next) :
    Line.carryFrom (spell (loosened takesTie previous line)) (rest.map spell)
      = (settled takesTie previous (line :: rest)).map spell := by
  induction rest generalizing previous line with
  | nil => rfl
  | cons next rest ih =>
      obtain ⟨hnext, hrest⟩ := List.forall_mem_cons.1 hrest
      obtain ⟨hneat, -, hclosed, hsound⟩ := h.loosened takesTie previous
      have hbehind := ih (some line) hnext hrest
      have hloose : loosened takesTie (some line) next
          = if hands takesTie line next then Glyph.untie next else next := rfl
      rw [List.map_cons, Line.carryFrom, hnext.withoutOpeningTie?_spell,
        tieLast?_spell hneat.plain hclosed, hsound]
      rw [hloose] at hbehind
      unfold settled
      rw [List.head?_cons, Option.any_some, List.map_cons, ← hbehind]
      unfold hands
      cases opensTied next
      · rfl
      · cases (lastSound? line).any takesTie
        · rfl
        · rfl

/-- Lines are carried as their neighbours settle them. -/
theorem carryTies_spell {lines : List (List Glyph)} (h : ∀ line ∈ lines, MusicLine line) :
    Line.carryTies (lines.map spell) = (settled takesTie none lines).map spell := by
  cases lines with
  | nil => rfl
  | cons line rest =>
      obtain ⟨hline, hrest⟩ := List.forall_mem_cons.1 h
      exact carryFrom_spell none hline hrest

/-- Settled lines are neat, and none of them is empty. -/
theorem neat_settled {lines : List (List Glyph)} (h : ∀ line ∈ lines, MusicLine line ∧ line ≠ [])
    (previous : Option (List Glyph)) :
    ∀ line ∈ settled takesTie previous lines, Neat line ∧ line ≠ [] := by
  induction lines generalizing previous with
  | nil => exact fun line hline => absurd hline List.not_mem_nil
  | cons line rest ih =>
      obtain ⟨⟨hline, hne⟩, hrest⟩ := List.forall_mem_cons.1 h
      obtain ⟨hneat, hkept, hclosed, hsound⟩ := hline.loosened takesTie previous
      refine List.forall_mem_cons.2 ⟨?_, ih hrest (some line)⟩
      split
      · next hany =>
        cases hhead : rest.head? with
        | none =>
            rw [hhead] at hany
            cases hany
        | some next =>
            rw [hhead, Option.any_some] at hany
            cases hlast : lastSound? line with
            | none =>
                have htakes := (Bool.and_eq_true_iff.1 hany).2
                rw [hlast] at htakes
                cases htakes
            | some g =>
                refine ⟨hneat.tieEnd hclosed (hsound.trans hlast), ?_⟩
                exact List.append_ne_nil_of_right_ne_nil _ (List.cons_ne_nil _ _)
      · exact ⟨hneat, hkept hne⟩

/-- Lines are settled alike where neighbours hand over alike. -/
theorem settled_congr {takes takes' : Glyph → Bool} {lines : List (List Glyph)}
    (previous : Option (List Glyph))
    (h : (previous.toList ++ lines).IsChain fun a b => hands takes a b = hands takes' a b) :
    settled takes previous lines = settled takes' previous lines := by
  induction lines generalizing previous with
  | nil => rfl
  | cons line rest ih =>
      obtain ⟨-, hrest, hmeet⟩ := List.isChain_append.1 h
      have hloose : loosened takes previous line = loosened takes' previous line := by
        unfold loosened
        cases previous with
        | none => rfl
        | some last => rw [Option.any_some, Option.any_some, hmeet last rfl line rfl]
      have hnext : rest.head?.any (hands takes line) = rest.head?.any (hands takes' line) := by
        cases hhead : rest.head? with
        | none => rfl
        | some next => exact (List.isChain_cons.1 hrest).1 next hhead
      unfold settled
      rw [hloose, hnext, ih (some line) hrest]

/-- Ties move between neighbours: a line that opens with one hands it to the line before if that ends
on a note, or on a rest whose length is written. Where no such rest is before a tie, ties go to notes
alone. -/
theorem carryTies_eq_settled {lines : List (List Glyph)} (h : ∀ line ∈ lines, MusicLine line) :
    Line.carryTies (lines.map spell) = (settled takesTie none lines).map spell
      ∧ ((lines.IsChain fun previous line => opensTied line = true →
            ∀ length, lastSound? previous = some (.token (.rest length)) → length = 1) →
          Line.carryTies (lines.map spell) = (settled isNote none lines).map spell) := by
  have hcarry := carryTies_spell h
  refine ⟨hcarry, fun hrests => ?_⟩
  rw [hcarry, settled_congr none (hrests.imp fun previous line hunit => ?_)]
  unfold hands
  cases htied : opensTied line with
  | false => rfl
  | true =>
      cases hlast : lastSound? previous with
      | none => rfl
      | some g =>
          cases g with
          | space => rfl
          | token t =>
              cases t with
              | rest length =>
                  obtain rfl := hunit htied length hlast
                  rfl
              | _ => rfl

/-- Three lines: a rest before a line without a tie, and a note and a barline before one with a tie
behind a field. -/
def handedLines : List (List Glyph) :=
  [[.token (.note .plain .c 4 1), .space, .token (.rest 2)],
    [.token (.note .plain .d 4 1), .token .bar],
    [.token (.field 'M' "3/4".toList), .space, .token .tie, .token (.note .plain .d 4 1), .space,
      .token (.note .plain .e 4 1)]]

theorem carryTies_eq_settled_handedLines :
    (∀ line ∈ handedLines, MusicLine line)
      ∧ Line.carryTies (handedLines.map spell) = (settled isNote none handedLines).map spell
      ∧ (Line.carryTies (handedLines.map spell)).map String.ofList
        = ["C z2", "D-|", "[M:3/4] D E"] := by
  have hfield : (Token.field 'M' "3/4".toList).Plain :=
    ⟨Or.inr (Or.inr rfl), by decide, ⟨by decide, by decide⟩, forall_mem_of_all (by decide)⟩
  have hlines : ∀ line ∈ handedLines, MusicLine line := by
    refine List.forall_mem_cons.2 ⟨?_, List.forall_mem_cons.2 ⟨?_, List.forall_mem_singleton.2 ?_⟩⟩
    all_goals refine .of_neaten (by decide +kernel) ?_ (by simp [Held, opens, isInked])
    · simp +decide [Glyph.Plain, Token.Plain, Token.Legible]
    · simp +decide [Glyph.Plain, Token.Plain, Token.Legible]
    · exact List.forall_mem_cons.2 ⟨hfield, by simp +decide [Glyph.Plain, Token.Plain, Token.Legible]⟩
  refine ⟨hlines, (carryTies_eq_settled hlines).2 ?_, by decide +kernel⟩
  refine List.isChain_cons_cons.2 ⟨fun htied => absurd htied (by decide), ?_⟩
  refine List.isChain_pair.2 fun _ length hlast => ?_
  cases hlast

/-- A note and a rest of two units, then a tie and two notes. -/
def pausedLines : List (List Glyph) :=
  [[.token (.note .plain .c 4 1), .space, .token (.rest 2)],
    [.token .tie, .token (.note .plain .c 4 1), .space, .token (.note .plain .d 4 1)]]

/-- A rest of two units takes a tie. -/
theorem carryTies_ne_settled_pausedLines :
    (∀ line ∈ pausedLines, MusicLine line)
      ∧ (Line.carryTies (pausedLines.map spell)).map String.ofList = ["C z2-", "C D"]
      ∧ ((settled isNote none pausedLines).map spell).map String.ofList = ["C z2", "-C D"] := by
  refine ⟨?_, by decide +kernel, by decide +kernel⟩
  refine List.forall_mem_cons.2 ⟨?_, List.forall_mem_singleton.2 ?_⟩
  all_goals
    refine .of_neaten (by decide +kernel) ?_ ?_
    · simp +decide [Glyph.Plain, Token.Plain, Token.Legible]
    · simp [Held, opens, isInked]

end LyricScore
