/-
Neat lines. A line is tidied in a fixed order, and what comes later could undo what came before: ties
are moved when the barlines have their spaces already, and lines hand over ties when they are tidy.
Tidying a line twice may well change it twice, as a tie in front of a barline shows. In a line that
rows write, though, a tie stands right before its note or before the opening of a tuplet (`Held`),
and then nothing is undone: the line comes out neat, and a neat line is tidied into itself.

# Any tie

Here a tie need not belong to the note before it. It moves to whatever ends with a character that can
end a note, which is a note, a rest with a written length or the opening of a tuplet (`fasten`).
-/
import LyricScore.Proofs.Tune.Tidy
import Mathlib.Data.List.Chain

namespace LyricScore

open Text

variable {gs hs : List Glyph} {g : Glyph}

namespace Glyph

-- ============================================================== ends

/-- Whether a glyph ends with a character that can end a note. -/
def endsNote (g : Glyph) : Bool :=
  g.chars.getLast?.any Line.endsNote

/-- Whether a glyph is a note, a rest or the opening of a tuplet: all that is written with ink. -/
def isInked : Glyph → Bool
  | .token (.note _ _ _ _) | .token (.rest _) | .token (.tuplet _ _) => true
  | _ => false

/-- Whether a glyph goes with one that is still to come. -/
def opens : Glyph → Bool
  | .token .tie | .token (.tuplet _ _) => true
  | _ => false

theorem opens_of_isGap (h : g.isGap = true) : g.opens = false := by
  cases g with
  | space => rfl
  | token t =>
      cases t with
      | tie | tuplet => cases h
      | _ => rfl

theorem Plain.isInked_iff (h : g.Plain) : g.isInked = true ↔ g.isGap = false ∧ g ≠ .token .tie := by
  cases g with
  | space => simp [isInked, isGap]
  | token t =>
      cases t with
      | field name value => simp [isInked, isGap, Token.Plain.isGap_field h]
      | _ => simp [isInked, isGap, Token.isGap]

theorem Plain.endsNote_of_isGap (h : g.Plain) (hgap : g.isGap = true) : g.endsNote = false := by
  have hends := endsNote_chars h hgap none
  rwa [Option.or_none] at hends

theorem Plain.isInked_of_endsNote (h : g.Plain) (hends : g.endsNote = true) : g.isInked = true := by
  rw [h.isInked_iff]
  refine ⟨Bool.eq_false_iff.2 fun hgap => ?_, ?_⟩
  · rw [h.endsNote_of_isGap hgap] at hends
    cases hends
  · rintro rfl
    exact absurd hends (by decide)

/-- What is written with ink, and its last character. -/
theorem Plain.inked_chars (h : g.Plain) (hink : g.isInked = true) :
    Inked g.chars ∧ ∃ c, g.chars.getLast? = some c ∧ Line.endsNote c = g.endsNote := by
  obtain ⟨hgap, htie⟩ := h.isInked_iff.1 hink
  cases g with
  | space => cases hgap
  | token t =>
      obtain ⟨hne, hchars⟩ := Token.Plain.ink h hgap fun ht => htie (congrArg Glyph.token ht)
      refine ⟨.of_forall hchars, t.chars.getLast hne, List.getLast?_eq_some_getLast hne, ?_⟩
      unfold endsNote
      rw [Glyph.chars, List.getLast?_eq_some_getLast hne]
      rfl

/-- The last character behind a glyph is that of the glyph. -/
theorem Plain.getLast?_or (h : g.Plain) (previous : Option Char) :
    (g.chars.getLast?.or previous).any Line.endsNote = g.endsNote := by
  obtain ⟨c, cs, hchars, -⟩ := h.exists_chars
  unfold endsNote
  rw [hchars, List.getLast?_cons, Option.some_or]

-- ============================================================ fasten

/-- Glyphs with every tie moved over the gap before it to a glyph that ends like a note. -/
def fasten (gs : List Glyph) : List Glyph :=
  match gs with
  | [] => []
  | g :: rest =>
    if g.endsNote = true ∧ (rest.dropWhile isGap).head? = some (.token .tie) then
      g :: .token .tie :: (rest.takeWhile isGap ++ fasten (rest.dropWhile isGap).tail)
    else g :: fasten rest
termination_by gs.length
decreasing_by
  · have hlength := (List.dropWhile_sublist isGap (l := rest)).length_le
    simp only [List.length_cons, List.length_tail]
    omega
  · simp

theorem fasten_nil : fasten [] = [] := by
  rw [fasten]

theorem fasten_of_stay
    (h : ¬ (g.endsNote = true ∧ (gs.dropWhile isGap).head? = some (.token .tie))) :
    fasten (g :: gs) = g :: fasten gs := by
  rw [fasten, if_neg h]

theorem head?_fasten (gs : List Glyph) : (fasten gs).head? = gs.head? := by
  cases gs with
  | nil => rw [fasten_nil]
  | cons g gs =>
      rw [fasten]
      split <;> rfl

theorem mem_fasten : g ∈ fasten gs ↔ g ∈ gs := by
  fun_induction fasten gs with
  | case1 => rfl
  | case2 h gs hmove ih =>
      nth_rewrite 3 [eq_gap_append_tie hmove.2]
      simp only [List.mem_cons, List.mem_append, ih]
      grind
  | case3 h gs hmove ih => rw [List.mem_cons, List.mem_cons, ih]

/-- The gap that opens a line is no place for a tie to go. -/
theorem dropWhile_fasten (h : ∀ g ∈ gs, g.Plain) :
    (fasten gs).dropWhile isGap = fasten (gs.dropWhile isGap) := by
  induction gs with
  | nil =>
      rw [fasten_nil]
      exact fasten_nil.symm
  | cons g gs ih =>
      obtain ⟨hg, hgs⟩ := List.forall_mem_cons.1 h
      cases hgap : g.isGap with
      | true =>
          rw [fasten_of_stay (by simp [hg.endsNote_of_isGap hgap]), List.dropWhile_cons_of_pos hgap,
            List.dropWhile_cons_of_pos hgap, ih hgs]
      | false =>
          have hstop : ∀ rest : List Glyph, (g :: rest).dropWhile isGap = g :: rest := fun rest =>
            List.dropWhile_cons_of_neg (by simp [hgap])
          rw [hstop, fasten]
          split
          · exact hstop _
          · exact hstop _

end Glyph

open Glyph

/-- In any line ties move by glyphs. -/
theorem attachTies_fasten (h : ∀ g ∈ gs, g.Plain) {previous : Option Char}
    (hprevious : previous.any Line.endsNote = true →
      (gs.dropWhile isGap).head? ≠ some (.token .tie)) :
    Line.attachTies previous (spell gs) = spell (fasten gs) := by
  fun_induction fasten gs generalizing previous with
  | case1 => rw [spell_nil, Line.attachTies]
  | case2 g gs hmove ih =>
      obtain ⟨hg, hgs⟩ := List.forall_mem_cons.1 h
      obtain ⟨hink, c, hlast, hends⟩ := hg.inked_chars (hg.isInked_of_endsNote hmove.1)
      have hrest : ∀ g ∈ (gs.dropWhile isGap).tail, g.Plain := fun g hg =>
        hgs g ((List.dropWhile_sublist _).subset (List.mem_of_mem_tail hg))
      rw [spell_cons, attachTies_append hink, hlast, Option.some_or,
        attachTies_gap hgs (hends.trans hmove.1) hmove.2, ih hrest fun hend => absurd hend (by decide)]
      simp [Glyph.chars, Token.chars]
  | case3 g gs hmove ih =>
      obtain ⟨hg, hgs⟩ := List.forall_mem_cons.1 h
      rw [attachTies_chars hg hgs, ih hgs, spell_cons]
      · rw [hg.getLast?_or]
        exact fun hends htie => hmove ⟨hends, htie⟩
      · intro hgap hends htie
        refine hprevious hends ?_
        rwa [List.dropWhile_cons_of_pos hgap]

-- ============================================================== held

/-- Glyphs as rows write them: right behind a tie or the opening of a tuplet comes a note, a rest or
the opening of a tuplet. -/
def Held : List Glyph → Prop
  | [] => True
  | g :: gs => (g.opens = true → ∃ next, gs.head? = some next ∧ next.isInked = true) ∧ Held gs

/-- A line that opens with a tie has something inked right behind it. -/
def Upheld (gs : List Glyph) : Prop :=
  ∀ rest, gs = .token .tie :: rest → ∃ next, rest.head? = some next ∧ next.isInked = true

namespace Held

theorem append (h : Held gs) (h' : Held hs) : Held (gs ++ hs) := by
  induction gs with
  | nil => exact h'
  | cons g gs ih =>
      rw [List.cons_append]
      refine ⟨fun hopens => ?_, ih h.2⟩
      obtain ⟨next, hnext, hink⟩ := h.1 hopens
      exact ⟨next, by rw [List.head?_append, hnext, Option.some_or], hink⟩

theorem dropWhile (h : Held gs) (p : Glyph → Bool) : Held (gs.dropWhile p) := by
  induction gs with
  | nil => exact h
  | cons g gs ih =>
      rw [List.dropWhile_cons]
      split
      · exact ih h.2
      · exact h

theorem of_cons (h : Held (g :: gs)) : Held gs :=
  h.2

theorem upheld (h : Held gs) : Upheld gs := by
  intro rest hgs
  rw [hgs] at h
  exact h.1 rfl

theorem tightenFrom (h : Held gs) (pending : Bool) : Held (Glyph.tightenFrom pending gs) := by
  induction gs generalizing pending with
  | nil => trivial
  | cons g gs ih =>
      cases g with
      | space => exact ih h.2 true
      | token t =>
          have hrest : Held (.token t :: Glyph.tightenFrom false gs) := by
            refine ⟨fun hopens => ?_, ih h.2 false⟩
            obtain ⟨next, hnext, hink⟩ := h.1 hopens
            obtain ⟨rest, rfl⟩ := List.head?_eq_some_iff.1 hnext
            cases next with
            | space => cases hink
            | token u => exact ⟨.token u, rfl, hink⟩
          cases pending with
          | false => exact hrest
          | true => exact ⟨fun hopens => Bool.noConfusion hopens, hrest⟩

theorem tighten (h : Held gs) : Held (Glyph.tighten gs) :=
  (h.dropWhile _).tightenFrom false

theorem closeBars (h : Held gs) : Held (Glyph.closeBars gs) := by
  induction gs with
  | nil => trivial
  | cons g gs ih =>
      unfold Glyph.closeBars
      split
      · exact ih h.2
      · refine ⟨fun hopens => ?_, ih h.2⟩
        obtain ⟨next, hnext, hink⟩ := h.1 hopens
        obtain ⟨rest, rfl⟩ := List.head?_eq_some_iff.1 hnext
        refine ⟨next, ?_, hink⟩
        unfold Glyph.closeBars
        rw [if_neg]
        · rfl
        · rintro ⟨rfl, -⟩
          cases hink

theorem openBars (h : Held gs) : Held (Glyph.openBars gs) := by
  induction gs with
  | nil => trivial
  | cons g gs ih =>
      unfold Glyph.openBars
      split
      · next hbar =>
        rw [hbar.1]
        exact ⟨fun hopens => Bool.noConfusion hopens, fun hopens => Bool.noConfusion hopens, ih h.2⟩
      · refine ⟨fun hopens => ?_, ih h.2⟩
        rw [head?_openBars]
        exact h.1 hopens

end Held

-- ============================================================= ruled

/-- What may stand next to what: no space before a barline, and behind one only a break. -/
def Abuts (a b : Glyph) : Prop :=
  (a = .space → b ≠ .token .bar) ∧ (a = .token .bar → b.isBreak = true)

theorem Abuts.of_token {a : Glyph} (hspace : a ≠ .space) (hbar : a ≠ .token .bar) (b : Glyph) :
    Abuts a b :=
  ⟨fun ha => absurd ha hspace, fun ha => absurd ha hbar⟩

theorem Abuts.of_isInked {a : Glyph} (h : a.isInked = true) (b : Glyph) : Abuts a b := by
  refine .of_token ?_ ?_ b
  all_goals
    rintro rfl
    cases h

theorem Abuts.tie (b : Glyph) : Abuts (.token .tie) b :=
  .of_token (by simp) (by simp) b

/-- Behind what stands before a tie there may be an inked glyph. -/
theorem Abuts.isInked_of_tie {a b : Glyph} (h : Abuts a (.token .tie)) (hb : b.isInked = true) :
    Abuts a b := by
  refine ⟨fun _ => ?_, fun ha => absurd (h.2 ha) (by decide)⟩
  rintro rfl
  cases hb

theorem isChain_closeBars (h : Thin gs) :
    (Glyph.closeBars gs).IsChain fun a b => a = .space → b ≠ .token .bar := by
  induction gs with
  | nil => exact .nil
  | cons g gs ih =>
      unfold Glyph.closeBars
      split
      · exact ih h.2
      · next hbar =>
        refine List.isChain_cons.2 ⟨?_, ih h.2⟩
        rintro next hnext rfl rfl
        -- the barline was next to the space already, or another space was between them
        cases gs with
        | nil => cases hnext
        | cons g gs =>
            unfold Glyph.closeBars at hnext
            split at hnext
            · next hspace => exact h.1 rfl (congrArg some hspace.1)
            · exact hbar ⟨rfl, hnext⟩

theorem isChain_openBars (h : gs.IsChain fun a b => a = .space → b ≠ .token .bar) :
    (Glyph.openBars gs).IsChain Abuts := by
  induction gs with
  | nil => exact .nil
  | cons g gs ih =>
      obtain ⟨hnext, hgs⟩ := List.isChain_cons.1 h
      unfold Glyph.openBars
      split
      · next hbar =>
        obtain ⟨rfl, -, hne⟩ := hbar
        refine List.isChain_cons_cons.2 ⟨⟨by simp, fun _ => rfl⟩, List.isChain_cons.2 ⟨?_, ih hgs⟩⟩
        rw [head?_openBars]
        exact fun next hhead => ⟨fun _ hbar => hne (hbar ▸ hhead), by simp⟩
      · next hbar =>
        refine List.isChain_cons.2 ⟨?_, ih hgs⟩
        rw [head?_openBars]
        refine fun next hhead => ⟨hnext next hhead, ?_⟩
        rintro rfl
        have hgsne : gs ≠ [] := by
          rintro rfl
          cases hhead
        have hsame : gs.head? = some (.token .bar) := by
          by_contra hne
          exact hbar ⟨rfl, hgsne, hne⟩
        obtain rfl := Option.some.inj (hsame.symm.trans hhead)
        rfl

theorem isChain_fasten (hplain : ∀ g ∈ gs, g.Plain) (hheld : Held gs) (h : gs.IsChain Abuts) :
    (fasten gs).IsChain Abuts := by
  fun_induction fasten gs with
  | case1 => exact .nil
  | case2 g gs hmove ih =>
      obtain ⟨hg, hgs⟩ := List.forall_mem_cons.1 hplain
      obtain ⟨rest, hsplit⟩ := List.head?_eq_some_iff.1 hmove.2
      have hbehind := hheld.of_cons.dropWhile isGap
      have hplain : ∀ g ∈ gs.dropWhile isGap, g.Plain := fun g hg =>
        hgs g ((List.dropWhile_sublist _).subset hg)
      have hrest := (List.isChain_cons.1 h).2
      rw [eq_gap_append_tie hmove.2] at hrest
      rw [hsplit, List.tail_cons] at hrest ih ⊢
      rw [hsplit] at hbehind hplain
      obtain ⟨next, hnext, hink⟩ := hbehind.1 rfl
      obtain ⟨hgap, htail, hlast⟩ := List.isChain_append.1 hrest
      refine List.isChain_cons_cons.2 ⟨.of_isInked (hg.isInked_of_endsNote hmove.1) _, ?_⟩
      refine List.isChain_cons.2 ⟨fun next _ => .tie next, List.isChain_append.2 ⟨hgap, ?_, ?_⟩⟩
      · exact ih (List.forall_mem_cons.1 hplain).2 hbehind.of_cons (List.isChain_cons.1 htail).2
      · intro last hmem first hfirst
        rw [head?_fasten, hnext] at hfirst
        obtain rfl := Option.some.inj hfirst
        exact (hlast last hmem _ rfl).isInked_of_tie hink
  | case3 g gs hmove ih =>
      obtain ⟨hg, hgs⟩ := List.forall_mem_cons.1 hplain
      obtain ⟨hnext, hrest⟩ := List.isChain_cons.1 h
      refine List.isChain_cons.2 ⟨?_, ih hgs hheld.of_cons hrest⟩
      rwa [head?_fasten]

theorem isChain_tightenFrom (h : gs.IsChain Abuts) {pending : Bool}
    (hpending : pending = true → gs.head? ≠ some (.token .bar)) :
    (tightenFrom pending gs).IsChain Abuts := by
  induction gs generalizing pending with
  | nil => exact .nil
  | cons g gs ih =>
      obtain ⟨hnext, hgs⟩ := List.isChain_cons.1 h
      cases g with
      | space => exact ih hgs fun _ hbar => (hnext _ hbar).1 rfl rfl
      | token t =>
          have hrest : (Glyph.token t :: tightenFrom false gs).IsChain Abuts := by
            refine List.isChain_cons.2 ⟨?_, ih hgs (fun hfalse => Bool.noConfusion hfalse)⟩
            intro next hmem
            cases gs with
            | nil => cases hmem
            | cons g gs =>
                cases g with
                | space =>
                    -- behind the spaces comes one space, if anything
                    refine ⟨by simp, fun _ => breaks_tightenFrom_true gs next hmem⟩
                | token u => exact hnext next hmem
          cases pending with
          | false => exact hrest
          | true =>
              refine List.isChain_cons_cons.2 ⟨⟨fun _ hbar => ?_, by simp⟩, hrest⟩
              exact hpending rfl (congrArg some hbar)

theorem isChain_dropWhile {R : Glyph → Glyph → Prop} (h : gs.IsChain R) (p : Glyph → Bool) :
    (gs.dropWhile p).IsChain R :=
  h.suffix (List.dropWhile_suffix p)

theorem isChain_tighten (h : gs.IsChain Abuts) : (tighten gs).IsChain Abuts :=
  isChain_tightenFrom (isChain_dropWhile h _) fun hfalse => Bool.noConfusion hfalse

-- ============================================================== fast

/-- Glyphs in which no tie is left to move: what ends like a note has its tie right behind it. -/
def Fast : List Glyph → Prop
  | [] => True
  | g :: gs =>
    (g.endsNote = true → (gs.dropWhile isGap).head? = some (.token .tie) →
      gs.head? = some (.token .tie)) ∧ Fast gs

theorem Fast.gap_append {gap : List Glyph} (hplain : ∀ g ∈ gap, g.Plain)
    (hgap : ∀ g ∈ gap, g.isGap = true) (h : Fast gs) : Fast (gap ++ gs) := by
  induction gap with
  | nil => exact h
  | cons g gap ih =>
      obtain ⟨hg, hplain⟩ := List.forall_mem_cons.1 hplain
      obtain ⟨hgapg, hgap⟩ := List.forall_mem_cons.1 hgap
      refine ⟨fun hends => ?_, ih hplain hgap⟩
      rw [hg.endsNote_of_isGap hgapg] at hends
      cases hends

theorem fast_fasten (h : ∀ g ∈ gs, g.Plain) : Fast (fasten gs) := by
  fun_induction fasten gs with
  | case1 => trivial
  | case2 g gs hmove ih =>
      obtain ⟨-, hgs⟩ := List.forall_mem_cons.1 h
      refine ⟨fun _ _ => rfl, fun hends => absurd hends (by decide), ?_⟩
      refine Fast.gap_append ?_ (forall_mem_takeWhile gs) (ih ?_)
      · exact fun g hg => hgs g ((List.takeWhile_sublist _).subset hg)
      · exact fun g hg => hgs g ((List.dropWhile_sublist _).subset (List.mem_of_mem_tail hg))
  | case3 g gs hmove ih =>
      obtain ⟨-, hgs⟩ := List.forall_mem_cons.1 h
      refine ⟨fun hends htie => ?_, ih hgs⟩
      rw [dropWhile_fasten hgs, head?_fasten] at htie
      exact absurd ⟨hends, htie⟩ hmove

/-- A line whose ties have all been moved stays as it is. -/
theorem Fast.fasten_eq (h : Fast gs) : fasten gs = gs := by
  fun_induction fasten gs with
  | case1 => rfl
  | case2 g gs hmove ih =>
      obtain ⟨rest, rfl⟩ := List.head?_eq_some_iff.1 (h.1 hmove.1 hmove.2)
      exact congrArg (fun behind => g :: .token .tie :: behind) (ih h.2.2)
  | case3 g gs hmove ih => rw [ih h.2]

theorem dropWhile_tightenFrom (pending : Bool) (gs : List Glyph) :
    (tightenFrom pending gs).dropWhile isGap = tightenFrom false (gs.dropWhile isGap) := by
  induction gs generalizing pending with
  | nil => rfl
  | cons g gs ih =>
      cases g with
      | space => exact ih true
      | token t =>
          have hrest : (Glyph.token t :: tightenFrom false gs).dropWhile isGap
              = tightenFrom false ((Glyph.token t :: gs).dropWhile isGap) := by
            rw [List.dropWhile_cons, List.dropWhile_cons]
            split
            · exact ih false
            · rfl
          cases pending <;> exact hrest

theorem dropWhile_tighten (gs : List Glyph) :
    (tighten gs).dropWhile isGap = tightenFrom false (gs.dropWhile isGap) := by
  unfold tighten
  rw [dropWhile_tightenFrom]
  induction gs with
  | nil => rfl
  | cons g gs ih =>
      cases g with
      | space => exact ih
      | token t => rfl

theorem head?_tightenFrom_false (h : gs.head? ≠ some .space) :
    (tightenFrom false gs).head? = gs.head? := by
  cases gs with
  | nil => rfl
  | cons g gs =>
      cases g with
      | space => exact absurd rfl h
      | token t => rfl

theorem head?_dropWhile_tightenFrom (pending : Bool) (gs : List Glyph) :
    ((tightenFrom pending gs).dropWhile isGap).head? = (gs.dropWhile isGap).head? := by
  rw [dropWhile_tightenFrom, head?_tightenFrom_false]
  intro hspace
  have hgap := List.head?_dropWhile_not isGap gs
  rw [hspace] at hgap
  cases hgap

theorem head?_dropWhile_openBars (gs : List Glyph) :
    ((Glyph.openBars gs).dropWhile isGap).head? = (gs.dropWhile isGap).head? := by
  induction gs with
  | nil => rfl
  | cons g gs ih =>
      unfold Glyph.openBars
      split
      · next hbar =>
        rw [hbar.1]
        exact ih
      · rw [List.dropWhile_cons, List.dropWhile_cons]
        split
        · exact ih
        · rfl

theorem Fast.tightenFrom (h : Fast gs) (pending : Bool) : Fast (Glyph.tightenFrom pending gs) := by
  induction gs generalizing pending with
  | nil => trivial
  | cons g gs ih =>
      cases g with
      | space => exact ih h.2 true
      | token t =>
          have hrest : Fast (.token t :: Glyph.tightenFrom false gs) := by
            refine ⟨fun hends htie => ?_, ih h.2 false⟩
            rw [head?_dropWhile_tightenFrom] at htie
            obtain ⟨rest, rfl⟩ := List.head?_eq_some_iff.1 (h.1 hends htie)
            rfl
          cases pending with
          | false => exact hrest
          | true => exact ⟨fun hends => absurd hends (by decide), hrest⟩

theorem Fast.dropWhile (h : Fast gs) (p : Glyph → Bool) : Fast (gs.dropWhile p) := by
  induction gs with
  | nil => exact h
  | cons g gs ih =>
      rw [List.dropWhile_cons]
      split
      · exact ih h.2
      · exact h

theorem Fast.openBars (h : Fast gs) : Fast (Glyph.openBars gs) := by
  induction gs with
  | nil => trivial
  | cons g gs ih =>
      unfold Glyph.openBars
      split
      · next hbar =>
        rw [hbar.1]
        exact ⟨fun hends => absurd hends (by decide), fun hends => absurd hends (by decide), ih h.2⟩
      · refine ⟨fun hends htie => ?_, ih h.2⟩
        rw [head?_dropWhile_openBars] at htie
        rw [head?_openBars]
        exact h.1 hends htie

-- ============================================================ closed

/-- Glyphs in which something inked comes behind every tie and every opening of a tuplet, though a
gap may be between them. -/
def Closed : List Glyph → Prop
  | [] => True
  | g :: gs => (g.opens = true → ∃ next ∈ gs, next.isInked = true) ∧ Closed gs

namespace Closed

theorem of_held (h : Held gs) : Closed gs := by
  induction gs with
  | nil => trivial
  | cons g gs ih =>
      refine ⟨fun hopens => ?_, ih h.2⟩
      obtain ⟨next, hnext, hink⟩ := h.1 hopens
      exact ⟨next, List.mem_of_head? hnext, hink⟩

theorem of_append (h : Closed (gs ++ hs)) : Closed hs := by
  induction gs with
  | nil => exact h
  | cons g gs ih => exact ih h.2

theorem gap_append {gap : List Glyph} (hgap : ∀ g ∈ gap, g.isGap = true) (h : Closed gs) :
    Closed (gap ++ gs) := by
  induction gap with
  | nil => exact h
  | cons g gap ih =>
      obtain ⟨hg, hgap⟩ := List.forall_mem_cons.1 hgap
      refine ⟨fun hopens => ?_, ih hgap⟩
      rw [opens_of_isGap hg] at hopens
      cases hopens

theorem fasten (h : Closed gs) : Closed (Glyph.fasten gs) := by
  fun_induction Glyph.fasten gs with
  | case1 => trivial
  | case2 g gs hmove ih =>
      have hgs := h.2
      rw [eq_gap_append_tie hmove.2] at hgs
      obtain ⟨hbehind, hrest⟩ := of_append hgs
      obtain ⟨next, hnext, hink⟩ := hbehind rfl
      have hmem : next ∈ gs.takeWhile isGap ++ Glyph.fasten (gs.dropWhile isGap).tail :=
        List.mem_append_right _ (mem_fasten.2 hnext)
      exact ⟨fun _ => ⟨next, List.mem_cons_of_mem _ hmem, hink⟩, fun _ => ⟨next, hmem, hink⟩,
        gap_append (forall_mem_takeWhile gs) (ih hrest)⟩
  | case3 g gs hmove ih =>
      refine ⟨fun hopens => ?_, ih h.2⟩
      obtain ⟨next, hnext, hink⟩ := h.1 hopens
      exact ⟨next, mem_fasten.2 hnext, hink⟩

theorem tightenFrom (h : Closed gs) (pending : Bool) : Closed (Glyph.tightenFrom pending gs) := by
  induction gs generalizing pending with
  | nil => trivial
  | cons g gs ih =>
      cases g with
      | space => exact ih h.2 true
      | token t =>
          have hrest : Closed (.token t :: Glyph.tightenFrom false gs) := by
            refine ⟨fun hopens => ?_, ih h.2 false⟩
            obtain ⟨next, hnext, hink⟩ := h.1 hopens
            cases next with
            | space => cases hink
            | token u =>
                refine ⟨.token u, mem_tokensOf.1 ?_, hink⟩
                rw [tokensOf_tightenFrom]
                exact mem_tokensOf.2 hnext
          cases pending with
          | false => exact hrest
          | true => exact ⟨fun hopens => Bool.noConfusion hopens, hrest⟩

theorem dropWhile (h : Closed gs) (p : Glyph → Bool) : Closed (gs.dropWhile p) :=
  of_append ((List.takeWhile_append_dropWhile (p := p) (l := gs)).symm ▸ h)

/-- What stands before the gap that ends a line is no opening. -/
theorem opens_eq_false {front gap : List Glyph} (hplain : ∀ g ∈ gap, g.Plain)
    (hgap : ∀ g ∈ gap, g.isGap = true) (h : Closed (front ++ g :: gap)) : g.opens = false := by
  refine Bool.eq_false_iff.2 fun hopens => ?_
  obtain ⟨next, hnext, hink⟩ := (of_append h).1 hopens
  have hno := ((hplain next hnext).isInked_iff.1 hink).1
  rw [hgap next hnext] at hno
  cases hno

end Closed

theorem Upheld.fasten (h : Upheld gs) : Upheld (Glyph.fasten gs) := by
  intro rest hrest
  cases gs with
  | nil =>
      rw [fasten_nil] at hrest
      cases hrest
  | cons g gs =>
      have hhead := head?_fasten (g :: gs)
      rw [hrest] at hhead
      obtain rfl := Option.some.inj hhead
      rw [fasten_of_stay fun hmove => absurd hmove.1 (by decide)] at hrest
      obtain ⟨-, rfl⟩ := List.cons.inj hrest
      rw [head?_fasten]
      exact h gs rfl

theorem Upheld.tightenFrom (h : Upheld gs) : Upheld (Glyph.tightenFrom false gs) := by
  intro rest hrest
  cases gs with
  | nil => cases hrest
  | cons g gs =>
      cases g with
      | space =>
          have htie : (Glyph.tightenFrom true gs).head? = some (.token .tie) := congrArg List.head? hrest
          exact absurd (breaks_tightenFrom_true gs _ htie) (by decide)
      | token t =>
          obtain ⟨ht, rfl⟩ := List.cons.inj hrest
          rw [ht] at h
          obtain ⟨next, hnext, hink⟩ := h gs rfl
          refine ⟨next, ?_, hink⟩
          rw [head?_tightenFrom_false, hnext]
          rw [hnext]
          rintro ⟨⟩
          cases hink

-- ============================================================== neat

/-- A line that is tidy and stays so. -/
structure Neat (gs : List Glyph) : Prop where
  plain : ∀ g ∈ gs, g.Plain
  thin : Thin gs
  head : gs.head? ≠ some .space
  last : gs.getLast? ≠ some .space
  ruled : gs.IsChain Abuts
  fast : Fast gs

/-- A neat line as rows write it, before ties are handed over: something inked is behind every tie,
and it is right behind a tie that has nothing but a gap before it. -/
structure MusicLine (gs : List Glyph) : Prop extends Neat gs where
  opening : Upheld (gs.dropWhile isGap)
  closing : Closed gs

/-- Glyphs tidied, wherever their ties stand. -/
def Glyph.neaten (gs : List Glyph) : List Glyph :=
  tighten (fasten (Glyph.openBars (Glyph.closeBars (tighten gs))))

theorem getLast?_tightenFrom_ne_space (pending : Bool) (gs : List Glyph) :
    (tightenFrom pending gs).getLast? ≠ some .space := by
  induction gs generalizing pending with
  | nil => simp [tightenFrom]
  | cons g gs ih =>
      cases g with
      | space => exact ih true
      | token t =>
          have hrest : (Glyph.token t :: tightenFrom false gs).getLast? ≠ some .space := by
            rw [List.getLast?_cons]
            cases hlast : (tightenFrom false gs).getLast? with
            | none => simp
            | some g =>
                rintro ⟨⟩
                exact ih false hlast
          cases pending with
          | false => exact hrest
          | true =>
              show (Glyph.space :: .token t :: tightenFrom false gs).getLast? ≠ some .space
              rwa [List.getLast?_cons_cons]

/-- Single spaces and none at the ends: nothing to squeeze. -/
theorem tightenFrom_eq (hthin : Thin gs) (hlast : gs.getLast? ≠ some .space) :
    tightenFrom false gs = gs ∧ (gs ≠ [] → gs.head? ≠ some .space →
      tightenFrom true gs = .space :: gs) := by
  induction gs with
  | nil => exact ⟨rfl, fun hne => absurd rfl hne⟩
  | cons g gs ih =>
      have hrest : gs.getLast? ≠ some .space := by
        intro h
        rw [List.getLast?_cons, h] at hlast
        exact hlast rfl
      obtain ⟨hsame, hpending⟩ := ih hthin.2 hrest
      cases g with
      | space =>
          refine ⟨hpending ?_ (hthin.1 rfl), fun _ hhead => absurd rfl hhead⟩
          rintro rfl
          exact hlast rfl
      | token t =>
          have hkeep : Glyph.token t :: tightenFrom false gs = .token t :: gs := by rw [hsame]
          exact ⟨hkeep, fun _ _ => congrArg (Glyph.space :: ·) hkeep⟩

theorem tighten_eq (hthin : Thin gs) (hhead : gs.head? ≠ some .space)
    (hlast : gs.getLast? ≠ some .space) : tighten gs = gs := by
  have hdrop : gs.dropWhile (· == .space) = gs := by
    cases gs with
    | nil => rfl
    | cons g gs =>
        refine List.dropWhile_cons_of_neg fun hg => hhead ?_
        rw [beq_iff_eq.1 hg]
        rfl
  unfold tighten
  rw [hdrop, (tightenFrom_eq hthin hlast).1]

theorem closeBars_eq (h : gs.IsChain Abuts) : Glyph.closeBars gs = gs := by
  induction gs with
  | nil => rfl
  | cons g gs ih =>
      obtain ⟨hnext, hgs⟩ := List.isChain_cons.1 h
      rw [Glyph.closeBars, if_neg, ih hgs]
      exact fun hbar => (hnext _ hbar.2).1 hbar.1 rfl

/-- A space more behind a barline that has one is squeezed again. -/
theorem tightenFrom_openBars (h : gs.IsChain Abuts) (pending : Bool) :
    tightenFrom pending (Glyph.openBars gs) = tightenFrom pending gs := by
  induction gs generalizing pending with
  | nil => rfl
  | cons g gs ih =>
      obtain ⟨hnext, hgs⟩ := List.isChain_cons.1 h
      unfold Glyph.openBars
      split
      · next hbar =>
        obtain ⟨rfl, hne, hbar⟩ := hbar
        obtain ⟨g, rest, rfl⟩ := List.exists_cons_of_ne_nil hne
        obtain rfl : g = .space := by
          have hbreak := (hnext g rfl).2 rfl
          cases g with
          | space => rfl
          | token t => cases t <;> first | exact absurd rfl hbar | cases hbreak
        have htail : tightenFrom true (Glyph.openBars (.space :: rest))
            = tightenFrom false (.space :: rest) := ih hgs true
        show _ ++ .token .bar :: tightenFrom true (Glyph.openBars (.space :: rest)) = _
        rw [htail]
        rfl
      · cases g with
        | space => exact ih hgs true
        | token t => exact congrArg (fun rest => _ ++ Glyph.token t :: rest) (ih hgs false)

theorem tighten_openBars (h : gs.IsChain Abuts) (hhead : gs.head? ≠ some .space) :
    tighten (Glyph.openBars gs) = tightenFrom false gs := by
  have hdrop : (Glyph.openBars gs).dropWhile (· == .space) = Glyph.openBars gs := by
    rw [← head?_openBars] at hhead
    cases hopened : Glyph.openBars gs with
    | nil => rfl
    | cons g rest =>
        rw [hopened] at hhead
        refine List.dropWhile_cons_of_neg fun hg => hhead ?_
        rw [beq_iff_eq.1 hg]
        rfl
  unfold tighten
  rw [hdrop, tightenFrom_openBars h]

/-- Tidying a line is tidying its glyphs. -/
theorem tidy_spell_neaten (h : ∀ g ∈ gs, g.Plain) : Line.tidy (spell gs) = spell (neaten gs) := by
  have hplain : ∀ {hs : List Glyph}, tokensOf hs = tokensOf gs → ∀ g ∈ hs, g.Plain := by
    intro hs htokens
    rw [plain_iff, htokens, ← plain_iff]
    exact h
  have hopened : ∀ g ∈ Glyph.openBars (Glyph.closeBars (tighten gs)), g.Plain := hplain (by simp)
  unfold Line.tidy neaten
  rw [squeeze_spell h, closeBars_spell (hplain (by simp)), openBars_spell (hplain (by simp)),
    attachTies_fasten hopened (fun hnone => by cases hnone),
    squeeze_spell fun g hg => hopened g (mem_fasten.1 hg)]

/-- A neat line is tidied into itself. -/
theorem Neat.tidy_eq (h : Neat gs) : Line.tidy (spell gs) = spell gs := by
  rw [tidy_spell_neaten h.plain]
  unfold neaten
  rw [tighten_eq h.thin h.head h.last, closeBars_eq h.ruled, h.fast.openBars.fasten_eq,
    tighten_openBars h.ruled h.head, (tightenFrom_eq h.thin h.last).1]

/-- What rows write is tidied into a music line. -/
theorem musicLine_neaten (hplain : ∀ g ∈ gs, g.Plain) (hheld : Held gs) :
    MusicLine (neaten gs) := by
  have hopened : ∀ g ∈ Glyph.openBars (Glyph.closeBars (tighten gs)), g.Plain := by
    rw [plain_iff]
    simpa [plain_iff] using hplain
  have hheld' : Held (Glyph.openBars (Glyph.closeBars (tighten gs))) :=
    hheld.tighten.closeBars.openBars
  have hruled : (Glyph.openBars (Glyph.closeBars (tighten gs))).IsChain Abuts :=
    isChain_openBars (isChain_closeBars (thin_tightenFrom _ _))
  have hfastened : ∀ g ∈ fasten (Glyph.openBars (Glyph.closeBars (tighten gs))), g.Plain :=
    fun g hg => hopened g (mem_fasten.1 hg)
  refine
    { plain := ?_
      thin := thin_tightenFrom _ _
      head := head?_tighten_ne_space _
      last := getLast?_tightenFrom_ne_space _ _
      ruled := isChain_tighten (isChain_fasten hopened hheld' hruled)
      fast := ((fast_fasten hopened).dropWhile _).tightenFrom false
      opening := ?_
      closing := ((Closed.of_held hheld').fasten.dropWhile _).tightenFrom false }
  · unfold neaten
    rw [plain_iff, tokensOf_tighten, ← plain_iff]
    exact hfastened
  · unfold neaten
    rw [dropWhile_tighten, dropWhile_fasten hopened]
    exact (hheld'.dropWhile isGap).upheld.fasten.tightenFrom

end LyricScore
