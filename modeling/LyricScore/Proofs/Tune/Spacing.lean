/-
Spaces, barlines and gaps by glyphs. A line is tidied character by character: spaces are squeezed,
barlines are closed up and opened, and the gap at the head of a text is measured. Each of these is
one on the glyphs of the line: inside a token nothing happens, since it is inked, and between tokens
the first character of a glyph tells what it is.
-/
import LyricScore.Proofs.Tune.Ink

namespace LyricScore

open Text

-- ============================================================= spell

variable {gs : List Glyph}

theorem spell_eq_nil_iff (h : ∀ g ∈ gs, g.Plain) : spell gs = [] ↔ gs = [] := by
  cases gs with
  | nil => simp
  | cons g gs =>
      obtain ⟨c, cs, hchars, -⟩ := (h g List.mem_cons_self).exists_chars
      rw [spell_cons, hchars]
      simp

theorem head?_spell_eq_bar (h : ∀ g ∈ gs, g.Plain) :
    (spell gs).head? = some '|' ↔ gs.head? = some (.token .bar) := by
  cases gs with
  | nil => simp
  | cons g gs =>
      obtain ⟨c, cs, hchars, -, hbar, -⟩ := (h g List.mem_cons_self).exists_chars
      rw [spell_cons, hchars]
      simpa using hbar

theorem head?_spell_eq_tie (h : ∀ g ∈ gs, g.Plain) :
    (spell gs).head? = some '-' ↔ gs.head? = some (.token .tie) := by
  cases gs with
  | nil => simp
  | cons g gs =>
      obtain ⟨c, cs, hchars, -, -, htie, -⟩ := (h g List.mem_cons_self).exists_chars
      rw [spell_cons, hchars]
      simpa using htie

/-- A token is a barline, a tie, a field with ink behind its bracket, or ink. -/
theorem Token.Plain.cases {t : Token} (h : t.Plain) :
    t = .bar ∨ t = .tie
      ∨ (t.isGap = true ∧ ∃ name value, t = .field name value ∧ Inked (name :: ':' :: (value ++ [']'])))
      ∨ (t.isGap = false ∧ t ≠ .tie ∧ t.chars ≠ [] ∧ Inked t.chars) := by
  have hink : t.isGap = false → t ≠ .tie →
      t.isGap = false ∧ t ≠ .tie ∧ t.chars ≠ [] ∧ Inked t.chars := fun hgap htie =>
    ⟨hgap, htie, (h.ink hgap htie).1, .of_forall (h.ink hgap htie).2⟩
  cases t with
  | bar => exact Or.inl rfl
  | tie => exact Or.inr (Or.inl rfl)
  | field name value => exact Or.inr (Or.inr (Or.inl ⟨h.isGap_field, name, value, rfl, h.inked_field⟩))
  | _ => exact Or.inr (Or.inr (Or.inr (hink rfl (by simp))))

-- ============================================================ spaces

namespace Glyph

/-- Glyphs with single spaces and none at the end; `pending` says that spaces came before. -/
def tightenFrom (pending : Bool) : List Glyph → List Glyph
  | [] => []
  | .space :: gs => tightenFrom true gs
  | .token t :: gs => (if pending then [.space] else []) ++ .token t :: tightenFrom false gs

/-- Glyphs with single spaces and none at the ends. -/
def tighten (gs : List Glyph) : List Glyph :=
  tightenFrom false (gs.dropWhile (· == .space))

theorem tokensOf_tightenFrom (pending : Bool) (gs : List Glyph) :
    tokensOf (tightenFrom pending gs) = tokensOf gs := by
  induction gs generalizing pending with
  | nil => rfl
  | cons g gs ih =>
      cases g with
      | space => exact ih true
      | token t => cases pending <;> exact congrArg (t :: ·) (ih false)

theorem tokensOf_dropWhile_space (gs : List Glyph) :
    tokensOf (gs.dropWhile (· == .space)) = tokensOf gs := by
  induction gs with
  | nil => rfl
  | cons g gs ih => cases g <;> first | exact ih | rfl

@[simp] theorem tokensOf_tighten (gs : List Glyph) : tokensOf (tighten gs) = tokensOf gs :=
  (tokensOf_tightenFrom false _).trans (tokensOf_dropWhile_space gs)

end Glyph

/-- Squeezing behind a token, with spaces before or without. -/
theorem squeeze_spell_behind (h : ∀ g ∈ gs, g.Plain) :
    (∀ {t : Token}, t.Plain →
      squeeze (t.chars ++ spell gs) = t.chars ++ spell (Glyph.tightenFrom false gs))
      ∧ spell (Glyph.tightenFrom true gs)
        = if squeeze (spell gs) = [] then [] else ' ' :: squeeze (spell gs) := by
  induction gs with
  | nil =>
      refine ⟨fun ht => ?_, rfl⟩
      rw [spell_nil, List.append_nil, ht.tight.2]
      exact (List.append_nil _).symm
  | cons g gs ih =>
      obtain ⟨hg, hgs⟩ := List.forall_mem_cons.1 h
      obtain ⟨hbehind, hpending⟩ := ih hgs
      cases g with
      | space =>
          refine ⟨fun {t} ht => ?_, ?_⟩
          · show squeeze (t.chars ++ ' ' :: spell gs) = t.chars ++ spell (Glyph.tightenFrom true gs)
            rw [ht.tight.squeeze_append_space, hpending]
          · show spell (Glyph.tightenFrom true gs) = if squeeze (' ' :: spell gs) = [] then _ else _
            rw [squeeze_space]
            exact hpending
      | token u =>
          obtain ⟨c, cs, hchars⟩ := List.exists_cons_of_ne_nil hg.tight.1
          have hhead : (u.chars ++ spell gs).head? = some c := by
            rw [hchars]
            rfl
          have hblank := hg.tight.head?_isBlank (c := c) (by rw [hchars]; rfl)
          refine ⟨fun {t} ht => ?_, ?_⟩
          · show squeeze (t.chars ++ (u.chars ++ spell gs))
              = t.chars ++ spell (.token u :: Glyph.tightenFrom false gs)
            rw [ht.tight.squeeze_append hhead hblank, hbehind hg]
            rfl
          · show spell (.space :: .token u :: Glyph.tightenFrom false gs)
              = if squeeze (u.chars ++ spell gs) = [] then _ else _
            rw [show spell (.token u :: gs) = u.chars ++ spell gs from rfl, hbehind hg, if_neg]
            · rfl
            · rw [hchars]
              exact List.cons_ne_nil _ _

theorem squeeze_spell (h : ∀ g ∈ gs, g.Plain) : squeeze (spell gs) = spell (Glyph.tighten gs) := by
  unfold Glyph.tighten
  induction gs with
  | nil => rfl
  | cons g gs ih =>
      obtain ⟨hg, hgs⟩ := List.forall_mem_cons.1 h
      cases g with
      | space => exact (squeeze_space _).trans (ih hgs)
      | token t => exact (squeeze_spell_behind hgs).1 hg

-- ========================================================== barlines

theorem closeBars_append {w : List Char} (hw : Inked w) (cs : List Char) :
    Line.closeBars (w ++ cs) = w ++ Line.closeBars cs := by
  induction w with
  | nil => rfl
  | cons c w ih =>
      rw [List.cons_append, Line.closeBars, if_neg, ih hw.tail]
      · rfl
      · -- behind a space comes more of the word, and no barline
        rintro ⟨rfl, hbar⟩
        obtain ⟨d, w, rfl⟩ := List.exists_cons_of_ne_nil hw.tail_ne_nil
        obtain rfl : d = '|' := Option.some.inj hbar
        rcases hw.1 '|' (by simp) with h | h <;> exact absurd h (by decide)

theorem openBars_append {w : List Char} (hw : Inked w) (cs : List Char) :
    Line.openBars (w ++ cs) = w ++ Line.openBars cs := by
  induction w with
  | nil => rfl
  | cons c w ih =>
      rw [List.cons_append, Line.openBars, if_neg, ih hw.tail]
      · rfl
      · rintro ⟨rfl, -⟩
        rcases hw.1 '|' List.mem_cons_self with h | h <;> exact absurd h (by decide)

namespace Glyph

/-- Glyphs without the spaces before barlines. -/
def closeBars : List Glyph → List Glyph
  | [] => []
  | g :: gs => if g = .space ∧ gs.head? = some (.token .bar) then closeBars gs else g :: closeBars gs

/-- Glyphs with a space behind each barline that neither ends them nor stands before another. -/
def openBars : List Glyph → List Glyph
  | [] => []
  | g :: gs =>
    if g = .token .bar ∧ gs ≠ [] ∧ gs.head? ≠ some (.token .bar) then g :: .space :: openBars gs
    else g :: openBars gs

theorem head?_openBars (gs : List Glyph) : (openBars gs).head? = gs.head? := by
  cases gs with
  | nil => rfl
  | cons g gs =>
      unfold openBars
      split <;> rfl

@[simp] theorem tokensOf_closeBars (gs : List Glyph) : tokensOf (closeBars gs) = tokensOf gs := by
  induction gs with
  | nil => rfl
  | cons g gs ih =>
      unfold closeBars
      split
      · next h =>
        rw [h.1]
        exact ih
      · cases g with
        | space => exact ih
        | token t => exact congrArg (t :: ·) ih

@[simp] theorem tokensOf_openBars (gs : List Glyph) : tokensOf (openBars gs) = tokensOf gs := by
  induction gs with
  | nil => rfl
  | cons g gs ih =>
      unfold openBars
      split
      · cases g with
        | space => exact ih
        | token t => exact congrArg (t :: ·) ih
      · cases g with
        | space => exact ih
        | token t => exact congrArg (t :: ·) ih

end Glyph

theorem closeBars_spell (h : ∀ g ∈ gs, g.Plain) :
    Line.closeBars (spell gs) = spell (Glyph.closeBars gs) := by
  induction gs with
  | nil => rfl
  | cons g gs ih =>
      obtain ⟨hg, hgs⟩ := List.forall_mem_cons.1 h
      cases g with
      | space =>
          show Line.closeBars (' ' :: spell gs) = _
          rw [Line.closeBars, Glyph.closeBars, ih hgs]
          simp only [head?_spell_eq_bar hgs, true_and]
          split <;> rfl
      | token t =>
          have hkept : Line.closeBars (t.chars ++ spell gs) = t.chars ++ Line.closeBars (spell gs) := by
            rcases hg.cases with rfl | rfl | ⟨-, name, value, rfl, hink⟩ | ⟨-, -, -, hink⟩
            · rfl
            · rfl
            · exact congrArg ('[' :: ·) (closeBars_append hink _)
            · exact closeBars_append hink _
          rw [Glyph.closeBars, if_neg (by simp)]
          exact hkept.trans (congrArg (t.chars ++ ·) (ih hgs))

theorem openBars_spell (h : ∀ g ∈ gs, g.Plain) :
    Line.openBars (spell gs) = spell (Glyph.openBars gs) := by
  induction gs with
  | nil => rfl
  | cons g gs ih =>
      obtain ⟨hg, hgs⟩ := List.forall_mem_cons.1 h
      by_cases hbar : g = .token .bar
      · subst hbar
        show Line.openBars ('|' :: spell gs) = _
        rw [Line.openBars, Glyph.openBars, ih hgs]
        simp only [ne_eq, spell_eq_nil_iff hgs, head?_spell_eq_bar hgs]
        split <;> rfl
      · rw [Glyph.openBars, if_neg fun h => hbar h.1, spell_cons, spell_cons, ← ih hgs]
        cases g with
        | space => rfl
        | token t =>
            rcases hg.cases with rfl | rfl | ⟨-, name, value, rfl, hink⟩ | ⟨-, -, -, hink⟩
            · exact absurd rfl hbar
            · rfl
            · exact congrArg ('[' :: ·) (openBars_append hink _)
            · exact openBars_append hink _

-- ============================================================== gaps

theorem fieldLength?_field {name : Char} {value : List Char} (h : (Token.field name value).Plain)
    (cs : List Char) :
    Line.fieldLength? ('[' :: name :: ':' :: (value ++ ']' :: cs)) = some (value.length + 4) := by
  obtain ⟨hname, hvalue, -⟩ := h
  have htake : (value ++ ']' :: cs).takeWhile (· != ']') = value :=
    (takeWhile_dropWhile_append (p := (· != ']'))
      (fun c hc => bne_iff_ne.2 fun heq => hvalue (heq ▸ hc)) (by rintro c ⟨⟩; decide)).1
  rw [Line.fieldLength?, if_pos ⟨hname, by simp⟩, htake]

theorem fieldLength?_of_ne {c : Char} (h : c ≠ '[') (cs : List Char) :
    Line.fieldLength? (c :: cs) = none := by
  unfold Line.fieldLength?
  split
  · next heq => exact absurd (List.cons.inj heq).1 h
  · rfl

theorem gapLength_eq_zero {c : Char} (hspace : c ≠ ' ') (hbar : c ≠ '|') (hfield : c ≠ '[')
    (cs : List Char) : Line.gapLength (c :: cs) = 0 := by
  rw [Line.gapLength, if_neg (by simp [hspace, hbar]), fieldLength?_of_ne hfield]

theorem spell_field (name : Char) (value : List Char) (gs : List Glyph) :
    spell (.token (.field name value) :: gs) = '[' :: name :: ':' :: (value ++ ']' :: spell gs) := by
  simp [Glyph.chars, Token.chars]

theorem drop_spell_field (name : Char) (value : List Char) (gs : List Glyph) :
    (spell (.token (.field name value) :: gs)).drop (value.length + 4) = spell gs := by
  rw [spell_field]
  simp

/-- The gap at the head of a line is that of its glyphs. -/
theorem gapLength_spell (h : ∀ g ∈ gs, g.Plain) :
    Line.gapLength (spell gs) = (spell (gs.takeWhile Glyph.isGap)).length := by
  induction gs with
  | nil =>
      rw [spell_nil, Line.gapLength]
      rfl
  | cons g gs ih =>
      obtain ⟨hg, hgs⟩ := List.forall_mem_cons.1 h
      cases g with
      | space =>
          rw [List.takeWhile_cons_of_pos rfl, spell_cons, spell_cons, List.length_append, ← ih hgs]
          show Line.gapLength (' ' :: spell gs) = _
          rw [Line.gapLength, if_pos (Or.inl rfl), Nat.add_comm]
          rfl
      | token t =>
          have hsolid : t.isGap = false →
              (spell ((Glyph.token t :: gs).takeWhile Glyph.isGap)).length = 0 := fun hgap => by
            rw [List.takeWhile_cons_of_neg (by simpa [Glyph.isGap] using hgap)]
            rfl
          rcases hg.cases with rfl | rfl | ⟨hgap, name, value, rfl, -⟩ | ⟨hgap, htie, -, -⟩
          · rw [List.takeWhile_cons_of_pos rfl, spell_cons, spell_cons, List.length_append, ← ih hgs]
            show Line.gapLength ('|' :: spell gs) = _
            rw [Line.gapLength, if_pos (Or.inr rfl), Nat.add_comm]
            rfl
          · rw [hsolid rfl]
            exact gapLength_eq_zero (by decide) (by decide) (by decide) _
          · have hdrop : (name :: ':' :: (value ++ ']' :: spell gs)).drop (value.length + 3)
                = spell gs := by
              simp
            rw [List.takeWhile_cons_of_pos
                (show Glyph.isGap (.token (.field name value)) = true from hgap), spell_field,
              Line.gapLength, if_neg (by decide), fieldLength?_field hg]
            dsimp only
            rw [hdrop, ih hgs, spell_cons, List.length_append]
            simp [Glyph.chars, Token.chars]
            omega
          · rw [hsolid hgap]
            obtain ⟨c, cs, hchars, hc⟩ := Token.Plain.exists_ink hg hgap htie
            obtain ⟨-, hbar, hfield, -⟩ := isInk_eq_true hc
            show Line.gapLength (t.chars ++ spell gs) = 0
            rw [hchars]
            exact gapLength_eq_zero (ne_space_of_isInk hc) hbar hfield _

theorem spell_gap_append (gs : List Glyph) :
    spell (gs.takeWhile Glyph.isGap) ++ spell (gs.dropWhile Glyph.isGap) = spell gs := by
  rw [← spell_append, List.takeWhile_append_dropWhile]

theorem drop_gapLength_spell (h : ∀ g ∈ gs, g.Plain) :
    (spell gs).drop (Line.gapLength (spell gs)) = spell (gs.dropWhile Glyph.isGap) := by
  rw [gapLength_spell h, ← spell_gap_append gs, List.drop_left]

theorem take_gapLength_spell (h : ∀ g ∈ gs, g.Plain) :
    (spell gs).take (Line.gapLength (spell gs)) = spell (gs.takeWhile Glyph.isGap) := by
  rw [gapLength_spell h, ← spell_gap_append gs, List.take_left]

/-- Behind the gap at the head of an inked text there is ink. -/
theorem drop_gapLength_inked {w : List Char} (hw : Inked w) (hne : w ≠ []) (cs : List Char) :
    ∃ d rest, isInk d = true ∧ (w ++ cs).drop (Line.gapLength (w ++ cs)) = d :: rest := by
  induction w with
  | nil => exact absurd rfl hne
  | cons c w ih =>
      rcases hw.1 c List.mem_cons_self with rfl | hc
      · rw [List.cons_append, Line.gapLength, if_pos (Or.inl rfl)]
        exact ih hw.tail hw.tail_ne_nil
      · obtain ⟨-, hbar, hfield, -⟩ := isInk_eq_true hc
        rw [List.cons_append, gapLength_eq_zero (ne_space_of_isInk hc) hbar hfield]
        exact ⟨c, w ++ cs, hc, rfl⟩

end LyricScore
