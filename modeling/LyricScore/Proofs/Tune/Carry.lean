/-
Carrying by glyphs. A tie that opens a line, behind any inline fields, is moved onto the last note
of the line before it. On tidy lines this moves a glyph over a gap, so the tokens of the lines are
read as before, and it says where a tie may stand afterwards (`Fits`): right behind a note, or at
the opening of a line whose gap has a barline, or of one that comes after a line without notes.

# The induction

`carryFrom` walks along the lines and keeps the last one open, since the next may give it a tie.
The run of the tune (`Tying.after`) is what the induction carries: where a line opens with a tie,
the run stands at a note, so the line before has that note with only a gap behind it, or it is a
gap altogether. The first kind takes the tie and the second leaves it.
-/
import LyricScore.Proofs.Tune.Tidy
import Mathlib.Data.List.TakeWhile

namespace LyricScore

open Text Glyph

variable {gs hs : List Glyph}

-- ========================================================== trimming

theorem dropWhile_isBlank_spell (h : ∀ g ∈ gs, g.Plain) :
    (spell gs).dropWhile isBlank = spell (gs.dropWhile (· == .space)) := by
  induction gs with
  | nil => rfl
  | cons g gs ih =>
      obtain ⟨hg, hgs⟩ := List.forall_mem_cons.1 h
      obtain ⟨c, cs, hchars, -, -, -, hblank⟩ := hg.exists_chars
      rw [List.dropWhile_cons]
      split
      · next hspace =>
        obtain rfl := beq_iff_eq.1 hspace
        exact ih hgs
      · next hspace =>
        have hc : isBlank c = false := by
          rw [← Bool.not_eq_true, hblank]
          exact fun hg => hspace (beq_iff_eq.2 hg)
        rw [spell_cons, hchars, List.cons_append, List.dropWhile_cons_of_neg (by simp [hc])]

/-- The last character of a token is no blank. -/
theorem Token.Plain.exists_concat {t : Token} (h : t.Plain) :
    ∃ cs c, t.chars = cs ++ [c] ∧ isBlank c = false := by
  have hne : t.chars ≠ [] := h.tight.1
  refine ⟨_, _, (List.dropLast_concat_getLast hne).symm, ?_⟩
  exact h.tight.getLast?_isBlank (List.getLast?_eq_some_getLast hne)

/-- Trimming takes spaces off the two ends. -/
theorem trim_spell (h : ∀ g ∈ gs, g.Plain) :
    ∃ front hs back, gs = front ++ (hs ++ back) ∧ (∀ g ∈ front, g = .space)
      ∧ (∀ g ∈ back, g = .space) ∧ trim (spell gs) = spell hs := by
  have hback : ∀ hs : List Glyph, (∀ g ∈ hs, g.Plain) →
      ∃ front back, hs = front ++ back ∧ (∀ g ∈ back, g = .space)
        ∧ ((spell hs).reverse.dropWhile isBlank).reverse = spell front := by
    intro hs hhs
    induction hs using List.reverseRecOn with
    | nil => exact ⟨[], [], rfl, by simp, rfl⟩
    | append_singleton hs g ih =>
        cases g with
        | space =>
            obtain ⟨front, back, rfl, hspaces, htrim⟩ :=
              ih fun g hg => hhs g (List.mem_append_left _ hg)
            refine ⟨front, back ++ [.space], List.append_assoc _ _ _, ?_, ?_⟩
            · exact List.forall_mem_append.2 ⟨hspaces, List.forall_mem_singleton.2 rfl⟩
            · rw [spell_append, List.reverse_append]
              exact htrim
        | token t =>
            have ht : t.Plain := hhs (.token t) (by simp)
            obtain ⟨cs, c, hchars, hc⟩ := ht.exists_concat
            refine ⟨hs ++ [.token t], [], (List.append_nil _).symm, by simp, ?_⟩
            have hspell : spell (hs ++ [.token t]) = spell hs ++ cs ++ [c] := by
              rw [spell_append, spell_cons, spell_nil, List.append_nil, Glyph.chars, hchars,
                List.append_assoc]
            rw [hspell, List.reverse_append, List.reverse_singleton, List.singleton_append,
              List.dropWhile_cons_of_neg (by simp [hc])]
            simp
  have hsplit := List.takeWhile_append_dropWhile (p := (· == Glyph.space)) (l := gs)
  obtain ⟨front, back, hfront, hspaces, htrim⟩ := hback (gs.dropWhile (· == .space)) fun g hg =>
    h g (List.dropWhile_sublist _ |>.subset hg)
  refine ⟨gs.takeWhile (· == .space), front, back, ?_, ?_, hspaces, ?_⟩
  · rw [← hfront, hsplit]
  · exact fun g hg => beq_iff_eq.1 (forall_mem_takeWhile gs g hg)
  · unfold trim trimWhere
    rw [dropWhile_isBlank_spell h, htrim]

theorem tokensOf_spaces (h : ∀ g ∈ gs, g = .space) : tokensOf gs = [] := by
  induction gs with
  | nil => rfl
  | cons g gs ih =>
      obtain ⟨rfl, hgs⟩ := List.forall_mem_cons.1 h
      exact ih hgs

-- ====================================================== opening ties

namespace Glyph

/-- The fields that open a line, each with a space behind it. -/
def openingFields : List Glyph → List Glyph
  | .token (.field name value) :: .space :: gs =>
    .token (.field name value) :: .space :: openingFields gs
  | _ => []

theorem openingFields_append_drop (gs : List Glyph) :
    openingFields gs ++ gs.drop (openingFields gs).length = gs := by
  fun_induction openingFields gs with
  | case1 name value gs ih => simpa using ih
  | case2 gs => rfl

theorem exists_field {g : Glyph} (hgap : g.isGap = true) (hspace : g ≠ .space)
    (hbar : g ≠ .token .bar) : ∃ name value, g = .token (.field name value) := by
  cases g with
  | space => exact absurd rfl hspace
  | token t =>
      cases t with
      | bar => exact absurd rfl hbar
      | field name value => exact ⟨name, value, rfl⟩
      | _ => cases hgap

/-- The fields and spaces before a tie open the line, if no barline is among them. -/
theorem openingFields_of_tie : ∀ {pre post : List Glyph}, Spaced (pre ++ .token .tie :: post) →
    Thin (pre ++ .token .tie :: post) → (pre ++ .token .tie :: post).head? ≠ some .space →
    (∀ g ∈ pre, g.isGap = true) → .token .bar ∉ pre →
    openingFields (pre ++ .token .tie :: post) = pre := by
  intro pre post
  induction pre using List.twoStepInduction with
  | nil =>
      intro _ _ _ _ _
      rfl
  | singleton g =>
      intro hspaced _ hhead hgap hbar
      obtain ⟨name, value, rfl⟩ := exists_field (hgap g List.mem_cons_self)
        (fun hg => hhead (hg ▸ rfl)) (fun hg => hbar (hg ▸ List.mem_cons_self))
      exact absurd (hspaced.1 rfl _ rfl) (by decide)
  | cons_cons g g' pre ih _ =>
      intro hspaced hthin hhead hgap hbar
      obtain ⟨name, value, rfl⟩ := exists_field (hgap g List.mem_cons_self)
        (fun hg => hhead (hg ▸ rfl)) (fun hg => hbar (hg ▸ List.mem_cons_self))
      have hbreak : g'.isBreak = true := hspaced.1 rfl g' rfl
      obtain rfl : g' = .space := by
        cases g' with
        | space => rfl
        | token t =>
            cases t with
            | bar => exact absurd (by simp) hbar
            | _ => cases hbreak
      show _ :: _ :: openingFields (pre ++ .token .tie :: post) = _
      rw [ih hspaced.2.2 hthin.2.2 (hthin.2.1 rfl)
        (fun g hg => hgap g (List.mem_cons_of_mem _ (List.mem_cons_of_mem _ hg)))
        (fun hmem => hbar (List.mem_cons_of_mem _ (List.mem_cons_of_mem _ hmem)))]

end Glyph

theorem openingLength_spell (h : ∀ g ∈ gs, g.Plain) :
    Line.openingLength (spell gs) = (spell (openingFields gs)).length := by
  fun_induction openingFields gs with
  | case1 name value gs ih =>
      obtain ⟨hplain, hrest⟩ := List.forall_mem_cons.1 h
      have hspace := drop_spell_field name value (.space :: gs)
      have hdrop : (spell (.token (.field name value) :: .space :: gs)).drop (value.length + 5)
          = spell gs := by
        rw [show value.length + 5 = value.length + 4 + 1 from rfl, ← List.drop_drop, hspace]
        rfl
      rw [Line.openingLength, spell_field, fieldLength?_field hplain, ← spell_field]
      dsimp only
      rw [hspace, if_pos (show (spell (.space :: gs)).head? = some ' ' from rfl), hdrop,
        ih (List.forall_mem_cons.1 hrest).2]
      simp [Glyph.chars, Token.chars]
      omega
  | case2 gs hgs =>
      rw [Line.openingLength]
      cases gs with
      | nil => rfl
      | cons g gs =>
          obtain ⟨hg, hrest⟩ := List.forall_mem_cons.1 h
          have hother : ∀ {c : Char} {cs : List Char}, spell (g :: gs) = c :: cs → c ≠ '[' →
              Line.fieldLength? (spell (g :: gs)) = none := fun hcs hc => by
            rw [hcs, fieldLength?_of_ne hc]
          cases g with
          | space => rw [hother rfl (by decide)]; rfl
          | token t =>
              rcases Token.Plain.cases hg with rfl | rfl | ⟨-, name, value, rfl, -⟩ | ⟨hgap, htie, -⟩
              · rw [hother rfl (by decide)]; rfl
              · rw [hother rfl (by decide)]; rfl
              · rw [spell_field, fieldLength?_field hg, ← spell_field]
                dsimp only
                rw [drop_spell_field, if_neg]
                · rfl
                · cases gs with
                  | nil => simp
                  | cons g' gs =>
                      obtain ⟨c, cs, hchars, hspace, -⟩ :=
                        (List.forall_mem_cons.1 hrest).1.exists_chars
                      rw [spell_cons, hchars]
                      intro hc
                      obtain rfl := hspace.1 (Option.some.inj hc)
                      exact hgs name value gs rfl
              · obtain ⟨c, cs, hchars, hc⟩ := Token.Plain.exists_ink hg hgap htie
                have hspell : spell (.token t :: gs) = c :: (cs ++ spell gs) := by
                  rw [spell_cons, Glyph.chars, hchars, List.cons_append]
                rw [hother hspell (isInk_eq_true hc).2.2.1]
                rfl

/-- A line gives up its tie if that stands behind the fields that open the line. -/
theorem withoutOpeningTie?_spell (h : ∀ g ∈ gs, g.Plain) :
    (∀ post, gs = openingFields gs ++ .token .tie :: post →
        Line.withoutOpeningTie? (spell gs) = some (trim (spell (openingFields gs ++ post))))
      ∧ ((∀ post, gs ≠ openingFields gs ++ .token .tie :: post) →
        Line.withoutOpeningTie? (spell gs) = none) := by
  generalize hopening : openingFields gs = opening
  obtain ⟨rest, hrest⟩ : ∃ rest, gs = opening ++ rest :=
    ⟨_, by rw [← hopening, openingFields_append_drop]⟩
  have hplain : ∀ g ∈ rest, g.Plain := fun g hg => h g (hrest ▸ List.mem_append_right _ hg)
  have hspell : spell gs = spell opening ++ spell rest := by rw [hrest, spell_append]
  have hlength : Line.openingLength (spell gs) = (spell opening).length := by
    rw [openingLength_spell h, hopening]
  have hdrop : (spell gs).drop (Line.openingLength (spell gs)) = spell rest := by
    rw [hlength, hspell, List.drop_left]
  unfold Line.withoutOpeningTie?
  dsimp only
  rw [hdrop]
  constructor
  · intro post hpost
    obtain rfl : rest = .token .tie :: post := List.append_cancel_left (hrest.symm.trans hpost)
    rw [if_pos ((head?_spell_eq_tie hplain).2 rfl), ← List.drop_drop, hdrop, hlength, hspell,
      List.take_left, spell_append]
    rfl
  · intro hno
    refine if_neg fun htie => ?_
    obtain ⟨post, rfl⟩ := List.head?_eq_some_iff.1 ((head?_spell_eq_tie hplain).1 htie)
    exact hno post hrest

-- ========================================================= last notes

/-- A line is at its tail where only a gap is left. -/
theorem isTail_spell (h : ∀ g ∈ gs, g.Plain) :
    Line.isTail (spell gs) = true ↔ ∀ g ∈ gs, g.isGap = true := by
  unfold Line.isTail
  dsimp only
  rw [drop_gapLength_spell h, ← List.dropWhile_eq_nil_iff]
  cases hrest : gs.dropWhile Glyph.isGap with
  | nil => simp
  | cons g rest =>
      have hg : g.Plain := h g ((List.dropWhile_sublist _).subset (hrest ▸ List.mem_cons_self))
      have hgap : ¬ g.isGap = true := by
        have hhead := List.head?_dropWhile_not Glyph.isGap gs
        rw [hrest] at hhead
        simpa using hhead
      obtain ⟨c, cs, hchars, -, -, -, hblank⟩ := hg.exists_chars
      have hc : c ≠ '\n' := by
        rintro rfl
        obtain rfl := hblank.1 (by decide)
        exact hgap rfl
      rw [spell_cons, hchars]
      simp [hc]

theorem isTail_append {w : List Char} (hw : Inked w) (hne : w ≠ []) (cs : List Char) :
    Line.isTail (w ++ cs) = false := by
  obtain ⟨d, rest, hd, hdrop⟩ := drop_gapLength_inked hw hne cs
  have hnewline : d ≠ '\n' := by
    rintro rfl
    exact absurd hd (by decide)
  unfold Line.isTail
  dsimp only
  rw [hdrop]
  simp [hnewline]

theorem tieLast?_append {w : List Char} (hw : Inked w) (cs : List Char) (previous : Option Char) :
    Line.tieLast? previous (w ++ cs)
      = (Line.tieLast? (w.getLast?.or previous) cs).map (w ++ ·) := by
  induction w generalizing previous with
  | nil => simp
  | cons c w ih =>
      have htail := isTail_append hw (List.cons_ne_nil c w) cs
      rw [List.cons_append] at htail ⊢
      rw [Line.tieLast?, htail, Bool.and_false, if_neg Bool.false_ne_true, ih hw.tail,
        getLast?_or_some c w previous, Option.map_map]
      rfl

/-- A glyph that is no tail behind a note stays before the tie. -/
theorem tieLast?_chars {g : Glyph} (hg : g.Plain) {previous : Option Char}
    (h : (previous.any Line.endsNote && Line.isTail (spell (g :: gs))) = false) :
    Line.tieLast? previous (spell (g :: gs))
      = (Line.tieLast? (g.chars.getLast?.or previous) (spell gs)).map (g.chars ++ ·) := by
  have hfirst : ∀ {c : Char} {cs : List Char}, spell (g :: gs) = c :: cs →
      Line.tieLast? previous (spell (g :: gs)) = (Line.tieLast? (some c) cs).map (c :: ·) := by
    intro c cs hcs
    rw [hcs] at h ⊢
    rw [Line.tieLast?, h, if_neg Bool.false_ne_true]
  cases g with
  | space => exact hfirst rfl
  | token t =>
      rcases Token.Plain.cases hg with rfl | rfl | ⟨-, name, value, rfl, hink⟩ | ⟨-, -, -, hink⟩
      · exact hfirst rfl
      · exact hfirst rfl
      · have hchars : spell (.token (.field name value) :: gs)
            = '[' :: ((name :: ':' :: (value ++ [']'])) ++ spell gs) := rfl
        rw [hfirst hchars, tieLast?_append hink, Option.map_map]
        have hlast : (Glyph.token (.field name value)).chars.getLast?.or previous
            = (name :: ':' :: (value ++ [']'])).getLast?.or (some '[') := by
          show ('[' :: name :: ':' :: (value ++ [']'])).getLast?.or previous = _
          rw [List.getLast?_cons_cons, List.getLast?_cons, Option.some_or, Option.some_or]
        rw [hlast]
        rfl
      · exact tieLast?_append hink _ _

/-- A line without notes gets no tie. -/
theorem tieLast?_gap (h : ∀ g ∈ gs, g.Plain) (hgap : ∀ g ∈ gs, g.isGap = true)
    {previous : Option Char} (hprevious : previous.any Line.endsNote = false) :
    Line.tieLast? previous (spell gs) = none := by
  induction gs generalizing previous with
  | nil =>
      rw [spell_nil, Line.tieLast?, hprevious]
      rfl
  | cons g gs ih =>
      obtain ⟨hg, hgs⟩ := List.forall_mem_cons.1 h
      obtain ⟨hgapg, hgapgs⟩ := List.forall_mem_cons.1 hgap
      rw [tieLast?_chars hg (by rw [hprevious, Bool.false_and]),
        ih hgs hgapgs (endsNote_chars hg hgapg previous)]
      rfl

/-- A line gets its tie right behind what stands before the gap that ends it, if that ends like a
note. -/
theorem tieLast?_behind {front gap : List Glyph} {g : Glyph} {c : Char}
    (h : ∀ g' ∈ front ++ g :: gap, g'.Plain) (hgap : ∀ g' ∈ gap, g'.isGap = true)
    (hsolid : g.isGap = false) (hink : Inked g.chars) (hlast : g.chars.getLast? = some c)
    (previous : Option Char) :
    Line.tieLast? previous (spell (front ++ g :: gap))
      = if Line.endsNote c then some (spell (front ++ g :: .token .tie :: gap)) else none := by
  induction front generalizing previous with
  | nil =>
      have hrest := (List.forall_mem_cons.1 h).2
      have htie : Line.tieLast? (some c) (spell gap)
          = if Line.endsNote c then some ('-' :: spell gap) else none := by
        split
        · next hends =>
          cases hspell : spell gap with
          | nil => simp [Line.tieLast?, hends]
          | cons d rest =>
              have htail := (isTail_spell hrest).2 hgap
              rw [hspell] at htail
              simp [Line.tieLast?, hends, htail]
        · next hends => exact tieLast?_gap hrest hgap (by simpa using hends)
      rw [List.nil_append, spell_cons, tieLast?_append hink, hlast, Option.some_or, htie]
      split <;> rfl
  | cons g' front ih =>
      obtain ⟨hg', hrest⟩ := List.forall_mem_cons.1 h
      have htail : Line.isTail (spell (g' :: front ++ g :: gap)) = false := by
        rw [← Bool.not_eq_true, isTail_spell h]
        intro hall
        rw [hall g (by simp)] at hsolid
        cases hsolid
      rw [List.cons_append] at htail ⊢
      rw [tieLast?_chars hg' (by rw [htail, Bool.and_false]), ih hrest]
      split <;> rfl

/-- A line gets its tie right behind its last note. -/
theorem tieLast?_note {front gap : List Glyph} {a : Accidental} {letter : Letter} {octave : Int}
    {q : Rat} (h : ∀ g ∈ front ++ .token (.note a letter octave q) :: gap, g.Plain)
    (hgap : ∀ g ∈ gap, g.isGap = true) (previous : Option Char) :
    Line.tieLast? previous (spell (front ++ .token (.note a letter octave q) :: gap))
      = some (spell (front ++ .token (.note a letter octave q) :: .token .tie :: gap)) := by
  have hnote := h (.token (.note a letter octave q)) (by simp)
  obtain ⟨hink, c, hlast, hends⟩ := Token.ink_note a letter octave hnote
  rw [tieLast?_behind h hgap rfl (Inked.of_forall hink) hlast, if_pos hends]

-- ============================================================== fits

/-- Where the ties of a line stand: right behind a note, or behind the gap that opens the line. Such
a gap has a barline, or the line before has no notes; `previous` is that line. -/
def Fits (previous : Option (List Glyph)) (line : List Glyph) : Prop :=
  ∀ pre post, line = pre ++ .token .tie :: post →
    (∃ g, pre.getLast? = some g ∧ g.isNote = true)
      ∨ (∀ g ∈ pre, g.isGap = true)
        ∧ (.token .bar ∈ pre ∨ ∀ last ∈ previous, ∀ g ∈ last, g.isGap = true)

/-- Lines that fit, each behind the line before it. -/
def Fit : Option (List Glyph) → List (List Glyph) → Prop
  | _, [] => True
  | previous, line :: lines => Fits previous line ∧ Fit (some line) lines

namespace Fits

variable {previous : Option (List Glyph)}

/-- The spaces at the ends of a line do not count. -/
theorem of_spaces {front back : List Glyph} (hfront : ∀ g ∈ front, g = .space)
    (h : Fits previous (front ++ (hs ++ back))) : Fits previous hs := by
  rintro pre post rfl
  have hspaces : ∀ g ∈ front, g.isNote = false ∧ g ≠ .token .bar := by
    intro g hg
    obtain rfl := hfront g hg
    exact ⟨rfl, by simp⟩
  rcases h (front ++ pre) (post ++ back) (by simp) with ⟨g, hlast, hnote⟩ | ⟨hgap, hwhy⟩
  · left
    rw [List.getLast?_append] at hlast
    rcases Option.or_eq_some_iff.1 hlast with hlast | ⟨-, hlast⟩
    · exact ⟨g, hlast, hnote⟩
    · rw [(hspaces g (List.mem_of_getLast? hlast)).1] at hnote
      cases hnote
  · right
    refine ⟨fun g hg => hgap g (List.mem_append_right _ hg), hwhy.imp_left fun hbar => ?_⟩
    rcases List.mem_append.1 hbar with hbar | hbar
    · exact absurd rfl (hspaces _ hbar).2
    · exact hbar

/-- A tidy line fits behind any line if no tie opens it. -/
theorem of_tidied (h : Tidied gs) (hno : ∀ post, gs ≠ openingFields gs ++ .token .tie :: post) :
    Fits previous gs := by
  rintro pre post rfl
  refine h.snug.of_tie.imp_right fun hgap => ⟨hgap, ?_⟩
  by_contra hwhy
  have hopening := openingFields_of_tie h.spaced h.thin h.head hgap fun hbar => hwhy (Or.inl hbar)
  exact hno post (by rw [hopening])

/-- A tidy line fits behind one without notes. -/
theorem of_gap (h : Tidied gs) (hgap : ∀ last ∈ previous, ∀ g ∈ last, g.isGap = true) :
    Fits previous gs := by
  rintro pre post rfl
  exact h.snug.of_tie.imp_right fun hpre => ⟨hpre, Or.inr hgap⟩

/-- A tidy line without the tie that opens it fits behind any line. -/
theorem of_opening {opening post : List Glyph} (h : Snug .opening (opening ++ .token .tie :: post))
    (hopening : ∀ g ∈ opening, g.isGap = true) : Fits previous (opening ++ post) := by
  have htie : ∀ {l : List Glyph}, (∀ g ∈ l, g.isGap = true) → .token .tie ∉ l := fun hl hmem =>
    absurd (hl _ hmem) (by decide)
  intro pre rest hsplit
  rcases List.append_eq_append_iff.1 hsplit with ⟨between, rfl, hpost⟩ | ⟨between, hpre, hrest⟩
  · -- the tie comes behind the opening, so in the line it came behind another tie
    rw [hpost, ← List.cons_append, ← List.append_assoc] at h
    rcases h.of_tie with ⟨g, hlast, hnote⟩ | hgap
    · left
      refine ⟨g, ?_, hnote⟩
      rw [List.getLast?_append] at hlast ⊢
      cases between with
      | nil =>
          obtain rfl := Option.some.inj hlast
          cases hnote
      | cons g' between => rwa [List.getLast?_cons_cons] at hlast
    · exact absurd (by simp) (htie hgap)
  · cases between with
    | nil =>
        rw [List.append_nil] at hpre
        obtain rfl := hpre
        rw [List.nil_append] at hrest
        rw [← hrest] at h
        rcases (show Snug .opening ((opening ++ [.token .tie]) ++ .token .tie :: rest) by
          simpa using h).of_tie with ⟨g, hlast, hnote⟩ | hgap
        · rw [List.getLast?_concat] at hlast
          obtain rfl := Option.some.inj hlast
          cases hnote
        · exact absurd (by simp) (htie hgap)
    | cons g between =>
        obtain ⟨rfl, -⟩ := List.cons.inj hrest
        exact absurd (by rw [hpre]; simp) (htie hopening)

/-- A line that fits does so with a tie on its last note. -/
theorem tie {front gap : List Glyph} {note : Glyph} (hnote : note.isNote = true)
    (hgap : ∀ g ∈ gap, g.isGap = true) (h : Fits previous (front ++ note :: gap)) :
    Fits previous (front ++ note :: .token .tie :: gap) := by
  intro pre post hsplit
  have hlast : (front ++ [note]).getLast? = some note := List.getLast?_concat
  rw [show front ++ note :: .token .tie :: gap = (front ++ [note]) ++ .token .tie :: gap by simp]
    at hsplit
  rcases List.append_eq_append_iff.1 hsplit with ⟨between, rfl, htie⟩ | ⟨between, hpre, htie⟩
  · cases between with
    | nil => exact Or.inl ⟨note, by simp, hnote⟩
    | cons g between =>
        obtain ⟨-, rfl⟩ := List.cons.inj htie
        exact absurd (hgap (.token .tie) (by simp)) (by decide)
  · cases between with
    | nil => exact Or.inl ⟨note, by rw [← hlast, hpre, List.append_nil], hnote⟩
    | cons g between =>
        obtain ⟨rfl, -⟩ := List.cons.inj htie
        refine h pre (between ++ gap) ?_
        rw [show front ++ note :: gap = (front ++ [note]) ++ gap by simp, hpre, List.append_assoc]
        rfl

end Fits

-- ============================================================= carry

/-- A token in the tokens of some glyphs is one of the glyphs. -/
theorem exists_of_tokensOf_eq {front back : List Token} {t : Token}
    (h : tokensOf gs = front ++ t :: back) :
    ∃ pre post, gs = pre ++ .token t :: post ∧ tokensOf pre = front ∧ tokensOf post = back := by
  unfold tokensOf at h
  obtain ⟨pre, rest, rfl, hpre, hrest⟩ := List.filterMap_eq_append_iff.1 h
  obtain ⟨spaces, g, post, rfl, hspaces, hg, hpost⟩ := List.filterMap_eq_cons_iff.1 hrest
  cases g with
  | space => cases hg
  | token t' =>
      obtain rfl := Option.some.inj hg
      refine ⟨pre ++ spaces, post, by simp, ?_, hpost⟩
      rw [tokensOf_append, show tokensOf spaces = [] from List.filterMap_eq_nil_iff.2 hspaces,
        List.append_nil]
      exact hpre

theorem isGap_of_tokensOf (h : ∀ t ∈ tokensOf gs, t.isGap = true) : ∀ g ∈ gs, g.isGap = true := by
  intro g hg
  cases g with
  | space => rfl
  | token t => exact h t (mem_tokensOf.2 hg)

theorem isGap_openingFields (h : ∀ g ∈ gs, g.Plain) : ∀ g ∈ openingFields gs, g.isGap = true := by
  fun_induction openingFields gs with
  | case1 name value gs ih =>
      obtain ⟨hfield, hrest⟩ := List.forall_mem_cons.1 h
      refine List.forall_mem_cons.2 ⟨Token.Plain.isGap_field hfield, List.forall_mem_cons.2 ⟨rfl, ?_⟩⟩
      exact ih (List.forall_mem_cons.1 hrest).2
  | case2 gs => simp

theorem isGap_tokensOf (h : ∀ g ∈ gs, g.isGap = true) : ∀ t ∈ tokensOf gs, t.isGap = true :=
  fun t ht => h (.token t) (mem_tokensOf.1 ht)

/-- Lines as carrying leaves them, read from one state to another. -/
structure Carried (previous : Option (List Glyph)) (s s' : Tying) (lines : List (List Glyph)) :
    Prop where
  plain : ∀ line ∈ lines, ∀ g ∈ line, g.Plain
  fit : Fit previous lines
  after : s.after (lines.flatMap tokensOf) = some s'

theorem Carried.cons {previous : Option (List Glyph)} {s s' s'' : Tying} {line : List Glyph}
    {lines : List (List Glyph)} (hplain : ∀ g ∈ line, g.Plain) (hfits : Fits previous line)
    (hline : s.after (tokensOf line) = some s') (h : Carried (some line) s' s'' lines) :
    Carried previous s s'' (line :: lines) where
  plain := List.forall_mem_cons.2 ⟨hplain, h.plain⟩
  fit := ⟨hfits, h.fit⟩
  after := by rw [List.flatMap_cons, Tying.after_append, hline, Option.bind_some, h.after]

/-- A line that is read up to a note is a gap, or it takes a tie on that note. -/
theorem exists_tied {previous : Option (List Glyph)} {s : Tying} {pitch : Letter × Int}
    {last : List Glyph} (hplain : ∀ g ∈ last, g.Plain) (hfits : Fits previous last)
    (hlast : s.after (tokensOf last) = some (.sung pitch)) :
    (∀ g ∈ last, g.isGap = true)
      ∨ ∃ tied, Line.tieLast? none (spell last) = some (spell tied) ∧ (∀ g ∈ tied, g.Plain)
        ∧ Fits previous tied ∧ s.after (tokensOf tied) = some (.tied pitch) := by
  rcases Tying.exists_note_of_after hlast with ⟨hgap, -⟩ | ⟨front, a, q, gap, htokens, hgap⟩
  · exact Or.inl (isGap_of_tokensOf hgap)
  · right
    obtain ⟨pre, back, rfl, rfl, rfl⟩ := exists_of_tokensOf_eq htokens
    have hback := isGap_of_tokensOf hgap
    refine ⟨_, tieLast?_note hplain hback none, ?_, hfits.tie rfl hback, ?_⟩
    · intro g hg
      rcases List.mem_append.1 hg with hg | hg
      · exact hplain g (List.mem_append_left _ hg)
      · rcases List.mem_cons.1 hg with rfl | hg
        · exact hplain _ (by simp)
        · rcases List.mem_cons.1 hg with rfl | hg
          · trivial
          · exact hplain g (by simp [hg])
    · rw [tokensOf_append, tokensOf_token, tokensOf_token, ← List.append_nil (tokensOf back),
        Tying.after_append, funext fun s' => (Tying.after_note_tie s' a pitch.1 pitch.2 q hgap []).symm,
        ← Tying.after_append, ← List.cons_append, ← List.append_assoc, Tying.after_append]
      rw [tokensOf_append, tokensOf_token] at hlast
      rw [hlast]
      rfl

/-- A tidy line without the tie that opens it. -/
theorem exists_untied {gs post : List Glyph} (h : Tidied gs)
    (hopening : gs = openingFields gs ++ .token .tie :: post) {s s' : Tying}
    (hs : s.after (tokensOf gs) = some s') (hsettled : s.Settled) :
    ∃ pitch untied, s = .sung pitch ∧ Line.withoutOpeningTie? (spell gs) = some (spell untied)
      ∧ (∀ g ∈ untied, g.Plain) ∧ (∀ previous, Fits previous untied)
      ∧ (Tying.tied pitch).after (tokensOf untied) = some s' := by
  have hgap := isGap_openingFields h.plain
  have hplain : ∀ g ∈ openingFields gs ++ post, g.Plain := by
    intro g hg
    refine h.plain g ?_
    rw [hopening]
    rcases List.mem_append.1 hg with hg | hg
    · exact List.mem_append_left _ hg
    · exact List.mem_append_right _ (List.mem_cons_of_mem _ hg)
  have hfits : ∀ previous, Fits previous (openingFields gs ++ post) := fun previous =>
    Fits.of_opening (hopening ▸ h.snug) hgap
  obtain ⟨pitch, hbefore, hbehind⟩ := exists_of_after_tie (hopening ▸ hs)
  rw [Tying.after_gap hsettled.ne_opened (isGap_tokensOf hgap)] at hbefore
  have hafter : (Tying.tied pitch).after (tokensOf (openingFields gs ++ post)) = some s' := by
    rw [tokensOf_append, Tying.after_append, Tying.after_gap (by simp) (isGap_tokensOf hgap),
      Option.bind_some, hbehind]
  have hwithout := (withoutOpeningTie?_spell h.plain).1 post hopening
  obtain ⟨front, untied, back, hsplit, hfront, hback, htrim⟩ := trim_spell hplain
  rw [htrim] at hwithout
  rw [hsplit] at hplain hfits hafter
  refine ⟨pitch, untied, Option.some.inj hbefore, hwithout,
    fun g hg => hplain g (List.mem_append_right _ (List.mem_append_left _ hg)),
    fun previous => (hfits previous).of_spaces hfront, ?_⟩
  rw [tokensOf_append, tokensOf_append, tokensOf_spaces hfront, tokensOf_spaces hback,
    List.nil_append, List.append_nil] at hafter
  exact hafter

/-- Carrying keeps what is read and makes the lines fit. -/
theorem exists_carryFrom {rest : List (List Glyph)} (hrest : ∀ line ∈ rest, Tidied line)
    (hwhole : ∀ line ∈ rest, Tying.Whole (tokensOf line)) {previous : Option (List Glyph)}
    {last : List Glyph} (hplain : ∀ g ∈ last, g.Plain) (hfits : Fits previous last) {s s' s'' : Tying}
    (hlast : s.after (tokensOf last) = some s') (hsettled : s'.Settled)
    (hafter : s'.after (rest.flatMap tokensOf) = some s'') :
    ∃ lines, Line.carryFrom (spell last) (rest.map spell) = lines.map spell
      ∧ Carried previous s s'' lines := by
  induction rest generalizing previous last s s' with
  | nil =>
      obtain rfl := Option.some.inj hafter
      exact ⟨[last], rfl, .cons hplain hfits hlast ⟨by simp, trivial, rfl⟩⟩
  | cons line rest ih =>
      obtain ⟨hline, hrest⟩ := List.forall_mem_cons.1 hrest
      obtain ⟨hwholeLine, hwhole⟩ := List.forall_mem_cons.1 hwhole
      rw [List.flatMap_cons, Tying.after_append] at hafter
      obtain ⟨t, hread, hbehind⟩ := Option.bind_eq_some_iff.1 hafter
      have ht := hwholeLine s' t hsettled hread
      rw [List.map_cons, Line.carryFrom]
      -- a line that keeps its tie, or has none
      have hkeep : Fits (some last) line →
          ∃ lines, spell last :: Line.carryFrom (spell line) (rest.map spell) = lines.map spell
            ∧ Carried previous s s'' lines := by
        intro hfitsLine
        obtain ⟨lines, hlines, hcarried⟩ := ih hrest hwhole hline.plain hfitsLine hread ht hbehind
        exact ⟨last :: lines, by rw [hlines, List.map_cons], .cons hplain hfits hlast hcarried⟩
      by_cases hopens : ∃ post, line = openingFields line ++ .token .tie :: post
      · obtain ⟨post, hpost⟩ := hopens
        obtain ⟨pitch, untied, rfl, hwithout, huntied, hfitsUntied, hreadUntied⟩ :=
          exists_untied hline hpost hread hsettled
        rw [hwithout]
        rcases exists_tied hplain hfits hlast with
          hgap | ⟨tied, htied, hplainTied, hfitsTied, hreadTied⟩
        · rw [tieLast?_gap hplain hgap rfl]
          exact hkeep (.of_gap hline fun l hl => by obtain rfl := Option.some.inj hl; exact hgap)
        · rw [htied]
          obtain ⟨lines, hlines, hcarried⟩ :=
            ih hrest hwhole huntied (hfitsUntied (some tied)) hreadUntied ht hbehind
          exact ⟨tied :: lines, by rw [List.map_cons, ← hlines],
            .cons hplainTied hfitsTied hreadTied hcarried⟩
      · have hno : ∀ post, line ≠ openingFields line ++ .token .tie :: post :=
          fun post hpost => hopens ⟨post, hpost⟩
        rw [(withoutOpeningTie?_spell hline.plain).2 hno]
        exact hkeep (.of_tidied hline hno)

/-- Tidy lines that are read, after their opening ties have moved. -/
theorem exists_carryTies {lines : List (List Glyph)} (h : ∀ line ∈ lines, Tidied line)
    (hwhole : ∀ line ∈ lines, Tying.Whole (tokensOf line)) {s : Tying}
    (hafter : Tying.silent.after (lines.flatMap tokensOf) = some s) :
    ∃ carried, Line.carryTies (lines.map spell) = carried.map spell
      ∧ Carried none .silent s carried := by
  cases lines with
  | nil =>
      obtain rfl := Option.some.inj hafter
      exact ⟨[], rfl, by simp, trivial, rfl⟩
  | cons line lines =>
      obtain ⟨hline, hlines⟩ := List.forall_mem_cons.1 h
      obtain ⟨hwholeLine, hwhole⟩ := List.forall_mem_cons.1 hwhole
      rw [List.flatMap_cons, Tying.after_append] at hafter
      obtain ⟨t, hread, hbehind⟩ := Option.bind_eq_some_iff.1 hafter
      exact exists_carryFrom hlines hwhole hline.plain (.of_gap hline (by simp)) hread
        (hwholeLine .silent t trivial hread) hbehind

end LyricScore
