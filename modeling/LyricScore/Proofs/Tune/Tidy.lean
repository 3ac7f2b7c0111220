/-
Tidying by glyphs. What tidying a line does, it does to the glyphs of the line. Spaces and barlines
are dealt with one by one; ties are moved to the notes that they extend, over a gap of spaces,
barlines and fields.

# Ties

A tie is moved to a character that can end a note, which the digits of a rest or of a tuplet can
too. In a line that is read without a tie that goes amiss no tie comes behind those, so every tie
goes to a note: it stands right behind one, or only a gap is before it (`Snug`).
-/
import LyricScore.Proofs.Tune.Spacing

namespace LyricScore

open Text

variable {gs hs : List Glyph}

-- ============================================================== ties

/-- The last of some characters that come behind another one. -/
theorem getLast?_or_some (c : Char) (w : List Char) (previous : Option Char) :
    w.getLast?.or (some c) = (c :: w).getLast?.or previous := by
  cases w with
  | nil => rfl
  | cons d w => rw [List.getLast?_cons_cons, List.getLast?_cons, Option.some_or, Option.some_or]

theorem attachTies_append {w : List Char} (hw : Inked w) (cs : List Char) (previous : Option Char) :
    Line.attachTies previous (w ++ cs) = w ++ Line.attachTies (w.getLast?.or previous) cs := by
  induction w generalizing previous with
  | nil => rfl
  | cons c w ih =>
      obtain ⟨d, rest, hd, hdrop⟩ := drop_gapLength_inked hw (List.cons_ne_nil c w) cs
      rw [List.cons_append] at hdrop ⊢
      rw [Line.attachTies, hdrop, if_neg, ih hw.tail, getLast?_or_some c w previous]
      · rfl
      · rintro ⟨-, -, htie⟩
        exact (isInk_eq_true hd).2.2.2 (Option.some.inj htie)

/-- A token or a space that is not moved over. -/
theorem attachTies_chars {g : Glyph} (hg : g.Plain) (hgs : ∀ g ∈ gs, g.Plain) {previous : Option Char}
    (h : g.isGap = true → previous.any Line.endsNote = true →
      (gs.dropWhile Glyph.isGap).head? ≠ some (.token .tie)) :
    Line.attachTies previous (spell (g :: gs))
      = g.chars ++ Line.attachTies (g.chars.getLast?.or previous) (spell gs) := by
  -- at the start of a gap the condition for a move is not met
  have hfirst : ∀ {c : Char} {cs : List Char}, spell (g :: gs) = c :: cs → g.isGap = true →
      Line.attachTies previous (c :: cs) = c :: Line.attachTies (some c) cs := by
    intro c cs hchars hgap
    have hplain : ∀ g' ∈ g :: gs, g'.Plain := List.forall_mem_cons.2 ⟨hg, hgs⟩
    rw [Line.attachTies, if_neg]
    rintro ⟨hends, -, htie⟩
    rw [← hchars, drop_gapLength_spell hplain, List.dropWhile_cons_of_pos hgap,
      head?_spell_eq_tie (fun g' hg' => hgs g' ((List.dropWhile_sublist _).subset hg'))] at htie
    exact h hgap hends htie
  cases g with
  | space => exact hfirst rfl rfl
  | token t =>
      rcases Token.Plain.cases hg with rfl | rfl | ⟨hgap, name, value, rfl, hink⟩ | ⟨-, -, -, hink⟩
      · exact hfirst rfl rfl
      · show Line.attachTies previous ('-' :: spell gs) = _
        rw [Line.attachTies, if_neg]
        · rfl
        · rintro ⟨-, hgap, -⟩
          exact hgap (gapLength_eq_zero (by decide) (by decide) (by decide) _)
      · have hchars : spell (.token (.field name value) :: gs)
            = '[' :: ((name :: ':' :: (value ++ [']'])) ++ spell gs) := rfl
        rw [hchars, hfirst hchars hgap, attachTies_append hink]
        show _ = ('[' :: (name :: ':' :: (value ++ [']']))) ++ Line.attachTies _ _
        rw [List.cons_append]
        congr 3
      · exact attachTies_append hink _ _

namespace Glyph

/-- Whether a glyph is a note. -/
def isNote : Glyph → Bool
  | .token (.note _ _ _ _) => true
  | _ => false

/-- Glyphs with every tie moved to the note before it. -/
def attach (gs : List Glyph) : List Glyph :=
  match gs with
  | [] => []
  | g :: rest =>
    if g.isNote = true ∧ (rest.dropWhile isGap).head? = some (.token .tie) then
      g :: .token .tie :: (rest.takeWhile isGap ++ attach (rest.dropWhile isGap).tail)
    else g :: attach rest
termination_by gs.length
decreasing_by
  · have hlength := (List.dropWhile_sublist isGap (l := rest)).length_le
    simp only [List.length_cons, List.length_tail]
    omega
  · simp

theorem exists_note {g : Glyph} (h : g.isNote = true) :
    ∃ accidental letter octave length, g = .token (.note accidental letter octave length) := by
  cases g with
  | space => cases h
  | token t =>
      cases t with
      | note a letter octave q => exact ⟨a, letter, octave, q, rfl⟩
      | _ => cases h

/-- A tie behind a gap. -/
theorem eq_gap_append_tie {gs : List Glyph}
    (h : (gs.dropWhile isGap).head? = some (.token .tie)) :
    gs = gs.takeWhile isGap ++ .token .tie :: (gs.dropWhile isGap).tail := by
  obtain ⟨rest, hrest⟩ := List.head?_eq_some_iff.1 h
  nth_rewrite 1 [← List.takeWhile_append_dropWhile (p := isGap) (l := gs)]
  rw [hrest, List.tail_cons]

theorem isGap_tokensOf_takeWhile (gs : List Glyph) :
    ∀ t ∈ tokensOf (gs.takeWhile isGap), t.isGap = true := by
  intro t ht
  have hgap : (Glyph.token t).isGap = true := forall_mem_takeWhile gs _ (mem_tokensOf.1 ht)
  exact hgap

end Glyph

open Glyph

/-- A tie that is read stands behind a note. -/
theorem exists_of_after_tie {pre post : List Glyph} {s s' : Tying}
    (h : s.after (tokensOf (pre ++ .token .tie :: post)) = some s') :
    ∃ pitch, s.after (tokensOf pre) = some (.sung pitch)
      ∧ (Tying.tied pitch).after (tokensOf post) = some s' := by
  rw [tokensOf_append, Tying.after_append] at h
  obtain ⟨before, hpre, h⟩ := Option.bind_eq_some_iff.1 h
  rw [tokensOf_token, Tying.after_cons] at h
  obtain ⟨behind, hstep, hpost⟩ := Option.bind_eq_some_iff.1 h
  cases Tying.steps_of_step hstep with
  | gap _ ht => cases ht
  | tie pitch => exact ⟨pitch, hpre, hpost⟩
  | pause _ hne _ => exact absurd rfl hne

/-- No tie comes where there is no note to tie. -/
theorem not_tie_ahead {s s' : Tying} (h : s.after (tokensOf gs) = some s')
    (hs : ∀ pitch, s ≠ .sung pitch) : (gs.dropWhile isGap).head? ≠ some (.token .tie) := by
  intro htie
  rw [eq_gap_append_tie htie] at h
  obtain ⟨pitch, hgap, -⟩ := exists_of_after_tie h
  rcases Tying.exists_note_of_after hgap with ⟨-, hs'⟩ | ⟨front, a, q, gap, hsplit, -⟩
  · exact hs pitch hs'
  · have hnote := isGap_tokensOf_takeWhile gs (.note a pitch.1 pitch.2 q) (by rw [hsplit]; simp)
    cases hnote

/-- Behind a note a tie may come, and it is moved there; behind another token there comes none before
the next note. -/
theorem exists_after_glyph {g : Glyph}
    (hmove : ¬ (g.isNote = true ∧ (gs.dropWhile isGap).head? = some (.token .tie))) {s s' : Tying}
    (hs : s.after (tokensOf (g :: gs)) = some s') :
    ∃ next : Tying, next.after (tokensOf gs) = some s'
      ∧ (g.isGap = false → (gs.dropWhile isGap).head? ≠ some (.token .tie)) := by
  cases g with
  | space => exact ⟨s, hs, fun h => by cases h⟩
  | token t =>
      rw [tokensOf_token, Tying.after_cons] at hs
      obtain ⟨next, hstep, hnext⟩ := Option.bind_eq_some_iff.1 hs
      refine ⟨next, hnext, fun hgap => ?_⟩
      cases Tying.steps_of_step hstep with
      | gap _ ht =>
          rw [show t.isGap = false from hgap] at ht
          cases ht
      | tie => exact not_tie_ahead hnext (by simp)
      | tuplet => exact not_tie_ahead hnext (by simp)
      | note => exact fun htie => hmove ⟨rfl, htie⟩
      | pause => exact not_tie_ahead hnext (by simp)

/-- What is read behind a tie that is moved. -/
theorem exists_after_move {g : Glyph} (htie : (gs.dropWhile isGap).head? = some (.token .tie))
    {s s' : Tying} (hs : s.after (tokensOf (g :: gs)) = some s') :
    ∃ pitch, (Tying.tied pitch).after (tokensOf (gs.dropWhile isGap).tail) = some s' := by
  rw [eq_gap_append_tie htie, ← List.cons_append] at hs
  obtain ⟨pitch, -, hpost⟩ := exists_of_after_tie hs
  exact ⟨pitch, hpost⟩

/-- Moving ties to their notes is not read. -/
theorem after_attach (gs : List Glyph) (s : Tying) :
    s.after (tokensOf (attach gs)) = s.after (tokensOf gs) := by
  fun_induction attach gs generalizing s with
  | case1 => rfl
  | case2 g gs hmove ih =>
      obtain ⟨a, letter, octave, q, rfl⟩ := exists_note hmove.1
      have hgap := isGap_tokensOf_takeWhile gs
      have hgs : tokensOf gs = tokensOf (gs.takeWhile isGap)
          ++ .tie :: tokensOf (gs.dropWhile isGap).tail := by
        rw [← tokensOf_token, ← tokensOf_append, ← eq_gap_append_tie hmove.2]
      rw [tokensOf_token, tokensOf_token, tokensOf_append, tokensOf_token, hgs,
        Tying.after_note_tie s a letter octave q hgap, ← List.cons_append, ← List.cons_append,
        ← List.cons_append, ← List.cons_append, Tying.after_append, Tying.after_append]
      exact congrArg _ (funext fun s' => ih s')
  | case3 g gs hmove ih =>
      cases g with
      | space => exact ih s
      | token t =>
          rw [tokensOf_token, tokensOf_token, Tying.after_cons, Tying.after_cons]
          exact congrArg _ (funext fun s' => ih s')

/-- A tie that is moved over a gap, which may be empty. -/
theorem attachTies_gap (h : ∀ g ∈ gs, g.Plain) {c : Char} (hc : Line.endsNote c = true)
    (htie : (gs.dropWhile isGap).head? = some (.token .tie)) :
    Line.attachTies (some c) (spell gs) = '-' :: (spell (gs.takeWhile isGap)
      ++ Line.attachTies (some '-') (spell (gs.dropWhile isGap).tail)) := by
  have hspell : spell (gs.dropWhile isGap) = '-' :: spell (gs.dropWhile isGap).tail := by
    obtain ⟨rest, hrest⟩ := List.head?_eq_some_iff.1 htie
    rw [hrest]
    rfl
  have hdrop := drop_gapLength_spell h
  have htake := take_gapLength_spell h
  rw [hspell] at hdrop
  cases hgs : spell gs with
  | nil =>
      rw [hgs, List.drop_nil] at hdrop
      cases hdrop
  | cons d ds =>
      rw [hgs] at hdrop htake
      by_cases hzero : Line.gapLength (d :: ds) = 0
      · rw [hzero] at hdrop htake
        obtain ⟨rfl, rfl⟩ := List.cons.inj hdrop
        rw [Line.attachTies, if_neg fun hmove => hmove.2.1 hzero, ← htake]
        rfl
      · have hbehind : ds.drop (Line.gapLength (d :: ds)) = spell (gs.dropWhile isGap).tail := by
          have htail := congrArg List.tail hdrop
          rwa [List.tail_drop, List.tail_cons] at htail
        rw [Line.attachTies, if_pos ⟨hc, hzero, by rw [hdrop]; rfl⟩, htake, hbehind]
        rfl

/-- A gap does not end like a note. -/
theorem endsNote_chars {g : Glyph} (hg : g.Plain) (h : g.isGap = true) (previous : Option Char) :
    (g.chars.getLast?.or previous).any Line.endsNote = false := by
  cases g with
  | space => rfl
  | token t =>
      cases t with
      | bar => rfl
      | field name value =>
          have hlast : (Glyph.token (.field name value)).chars.getLast? = some ']' := by
            show (('[' :: name :: ':' :: value) ++ [']']).getLast? = _
            rw [List.getLast?_concat]
          rw [hlast]
          rfl
      | _ => cases h

/-- In a line that is read, ties move by glyphs. -/
theorem attachTies_spell (h : ∀ g ∈ gs, g.Plain) {s s' : Tying}
    (hs : s.after (tokensOf gs) = some s') {previous : Option Char}
    (hprevious : previous.any Line.endsNote = true →
      (gs.dropWhile isGap).head? ≠ some (.token .tie)) :
    Line.attachTies previous (spell gs) = spell (attach gs) := by
  fun_induction attach gs generalizing s previous with
  | case1 => rw [spell_nil, Line.attachTies]
  | case2 g gs hmove ih =>
      obtain ⟨hg, hgs⟩ := List.forall_mem_cons.1 h
      obtain ⟨pitch, hread⟩ := exists_after_move hmove.2 hs
      obtain ⟨a, letter, octave, q, rfl⟩ := exists_note hmove.1
      obtain ⟨hink, c, hlast, hends⟩ := Token.ink_note a letter octave hg
      have hrest : ∀ g ∈ (gs.dropWhile isGap).tail, g.Plain := fun g hg =>
        hgs g ((List.dropWhile_sublist _).subset (List.mem_of_mem_tail hg))
      show Line.attachTies previous ((Token.note a letter octave q).chars ++ spell gs) = _
      rw [attachTies_append (.of_forall hink), hlast, Option.some_or, attachTies_gap hgs hends hmove.2,
        ih hrest hread fun hend => absurd hend (by decide)]
      simp [Glyph.chars, Token.chars]
  | case3 g gs hmove ih =>
      obtain ⟨hg, hgs⟩ := List.forall_mem_cons.1 h
      obtain ⟨next, hnext, hahead⟩ := exists_after_glyph hmove hs
      have hlast : (g.chars.getLast?.or previous).any Line.endsNote = true →
          (gs.dropWhile isGap).head? ≠ some (.token .tie) := by
        intro hends
        refine hahead (Bool.eq_false_iff.2 fun hgap => ?_)
        rw [endsNote_chars hg hgap] at hends
        cases hends
      rw [attachTies_chars hg hgs, ih hgs hnext hlast, spell_cons]
      intro hgap hends htie
      refine hprevious hends ?_
      rwa [List.dropWhile_cons_of_pos hgap]

-- ============================================================== snug

/-- Where a glyph stands in its line: behind a gap that opens the line, right behind a note, or
neither. -/
inductive Footing where
  | opening
  | behind
  | apart
  deriving DecidableEq

/-- The place behind a glyph. -/
def Footing.next (p : Footing) (g : Glyph) : Footing :=
  if g.isNote then .behind else if g.isGap = true ∧ p = .opening then .opening else .apart

theorem Footing.isGap_of_next {p : Footing} {g : Glyph} (h : p.next g = .opening) :
    g.isGap = true ∧ p = .opening := by
  unfold Footing.next at h
  split at h
  · cases h
  · split at h
    · next hgap => exact hgap
    · cases h

theorem Footing.isNote_of_next {p : Footing} {g : Glyph} (h : p.next g = .behind) :
    g.isNote = true := by
  unfold Footing.next at h
  split at h
  · next hnote => exact hnote
  · split at h <;> cases h

/-- A line that is still opening has nothing but a gap. -/
theorem isGap_of_foldl_next {p : Footing} (h : gs.foldl Footing.next p = .opening) :
    ∀ g ∈ gs, g.isGap = true := by
  induction gs using List.reverseRecOn with
  | nil => exact fun g hg => absurd hg List.not_mem_nil
  | append_singleton gs g ih =>
      rw [List.foldl_append] at h
      obtain ⟨hg, hgs⟩ := Footing.isGap_of_next h
      exact List.forall_mem_append.2 ⟨ih hgs, List.forall_mem_singleton.2 hg⟩

/-- Glyphs whose ties each stand right behind a note or behind a gap that opens the line. -/
def Snug : Footing → List Glyph → Prop
  | _, [] => True
  | p, g :: gs => (g = .token .tie → p ≠ .apart) ∧ Snug (p.next g) gs

namespace Snug

variable {p : Footing}

theorem append_iff : Snug p (gs ++ hs) ↔ Snug p gs ∧ Snug (gs.foldl Footing.next p) hs := by
  induction gs generalizing p with
  | nil => simp [Snug]
  | cons g gs ih => simp only [List.cons_append, Snug, List.foldl_cons, ih, and_assoc]

theorem of_apart (h : Snug .apart gs) (p : Footing) : Snug p gs := by
  induction gs generalizing p with
  | nil => trivial
  | cons g gs ih =>
      refine ⟨fun htie => absurd rfl (h.1 htie), ?_⟩
      have hrest := h.2
      unfold Footing.next at hrest ⊢
      split
      · next hnote =>
        rwa [if_pos hnote] at hrest
      · next hnote =>
        rw [if_neg hnote, if_neg (by simp)] at hrest
        exact ih hrest _

theorem gap_append {gap : List Glyph} (hgap : ∀ g ∈ gap, g.isGap = true) (h : Snug .apart gs) :
    Snug .apart (gap ++ gs) := by
  induction gap with
  | nil => exact h
  | cons g gap ih =>
      obtain ⟨hg, hgap⟩ := List.forall_mem_cons.1 hgap
      refine ⟨?_, (ih hgap).of_apart _⟩
      rintro rfl
      cases hg

/-- Where ties have been moved to their notes they are snug. -/
theorem attach {s s' : Tying} (hs : s.after (tokensOf gs) = some s')
    (hp : p ≠ .opening → (gs.dropWhile isGap).head? ≠ some (.token .tie)) :
    Snug p (Glyph.attach gs) := by
  fun_induction Glyph.attach gs generalizing s p with
  | case1 => trivial
  | case2 g gs hmove ih =>
      obtain ⟨pitch, hread⟩ := exists_after_move hmove.2 hs
      obtain ⟨a, letter, octave, q, rfl⟩ := exists_note hmove.1
      refine ⟨by simp, ⟨fun _ => by simp [Footing.next, isNote], ?_⟩⟩
      refine (gap_append (forall_mem_takeWhile gs) (ih hread fun _ => ?_)).of_apart _
      exact not_tie_ahead hread (by simp)
  | case3 g gs hmove ih =>
      obtain ⟨next, hnext, hahead⟩ := exists_after_glyph hmove hs
      refine ⟨?_, ih hnext fun hplace => ?_⟩
      · rintro rfl rfl
        exact hp (by decide) rfl
      · cases hgap : g.isGap with
        | false => exact hahead hgap
        | true =>
            have hopening : p ≠ .opening := by
              rintro rfl
              refine hplace ?_
              unfold Footing.next
              rw [if_neg, if_pos ⟨hgap, rfl⟩]
              intro hnote
              obtain ⟨a, letter, octave, q, rfl⟩ := exists_note hnote
              cases hgap
            have htie := hp hopening
            rwa [List.dropWhile_cons_of_pos hgap] at htie

theorem tightenFrom (gs : List Glyph) (p : Footing) :
    (Snug p gs → Snug p (Glyph.tightenFrom false gs))
      ∧ (Snug (p.next .space) gs → Snug p (Glyph.tightenFrom true gs)) := by
  induction gs generalizing p with
  | nil => exact ⟨fun _ => trivial, fun _ => trivial⟩
  | cons g gs ih =>
      cases g with
      | space =>
          refine ⟨fun h => (ih p).2 h.2, fun h => (ih p).2 ?_⟩
          have hsame : (p.next .space).next .space = p.next .space := by
            cases p <;> rfl
          exact hsame ▸ h.2
      | token t =>
          refine ⟨fun h => ⟨h.1, (ih _).1 h.2⟩, fun h => ⟨by simp, h.1, (ih _).1 h.2⟩⟩

theorem tighten (h : Snug .opening gs) : Snug .opening (Glyph.tighten gs) := by
  refine (tightenFrom _ _).1 ?_
  induction gs with
  | nil => trivial
  | cons g gs ih =>
      cases g with
      | space => exact ih h.2
      | token t => exact h

/-- A snug tie stands right behind a note, or nothing but a gap is before it. -/
theorem of_tie {pre post : List Glyph} (h : Snug .opening (pre ++ .token .tie :: post)) :
    (∃ g, pre.getLast? = some g ∧ g.isNote = true) ∨ ∀ g ∈ pre, g.isGap = true := by
  have hplace := (append_iff.1 h).2.1 rfl
  cases hfold : pre.foldl Footing.next .opening with
  | opening => exact Or.inr (isGap_of_foldl_next hfold)
  | behind =>
      left
      induction pre using List.reverseRecOn with
      | nil => cases hfold
      | append_singleton pre g _ =>
          rw [List.foldl_append] at hfold
          exact ⟨g, List.getLast?_concat, Footing.isNote_of_next hfold⟩
  | apart => exact absurd hfold hplace

end Snug

-- ============================================================ spaced

theorem plain_iff : (∀ g ∈ gs, g.Plain) ↔ ∀ t ∈ tokensOf gs, t.Plain := by
  constructor
  · intro h t ht
    exact h (.token t) (mem_tokensOf.1 ht)
  · intro h g hg
    cases g with
    | space => trivial
    | token t => exact h t (mem_tokensOf.2 hg)

theorem mem_tokensOf_attach {t : Token} (h : t ∈ tokensOf (attach gs)) : t ∈ tokensOf gs := by
  rw [mem_tokensOf] at h ⊢
  fun_induction attach gs with
  | case1 => exact h
  | case2 g gs hmove ih =>
      rw [eq_gap_append_tie hmove.2]
      simp only [List.mem_cons, List.mem_append] at h ⊢
      rcases h with h | h | h | h
      · exact Or.inl h
      · exact Or.inr (Or.inr (Or.inl h))
      · exact Or.inr (Or.inl h)
      · exact Or.inr (Or.inr (Or.inr (ih h)))
  | case3 g gs hmove ih =>
      rcases List.mem_cons.1 h with rfl | h
      · exact List.mem_cons_self
      · exact List.mem_cons_of_mem _ (ih h)

/-- Glyphs with no two spaces together. -/
def Thin : List Glyph → Prop
  | [] => True
  | g :: gs => (g = .space → gs.head? ≠ some .space) ∧ Thin gs

theorem thin_tightenFrom (pending : Bool) (gs : List Glyph) : Thin (tightenFrom pending gs) := by
  induction gs generalizing pending with
  | nil => trivial
  | cons g gs ih =>
      cases g with
      | space => exact ih true
      | token t => cases pending <;> simp [tightenFrom, Thin, ih]

theorem head?_tighten_ne_space (gs : List Glyph) : (tighten gs).head? ≠ some .space := by
  unfold tighten
  induction gs with
  | nil => simp [tightenFrom]
  | cons g gs ih =>
      cases g with
      | space => exact ih
      | token t => simp [tightenFrom]

theorem spaced_dropWhile (p : Glyph → Bool) (h : Spaced gs) : Spaced (gs.dropWhile p) := by
  induction gs with
  | nil => exact h
  | cons g gs ih =>
      rw [List.dropWhile_cons]
      split
      · exact ih h.2
      · exact h

theorem Spaced.cons {g : Glyph} (hg : g.isField = false) (h : Spaced gs) : Spaced (g :: gs) := by
  refine ⟨fun hfield => ?_, h⟩
  rw [hg] at hfield
  cases hfield

/-- What may follow a field. -/
def Breaks (gs : List Glyph) : Prop :=
  ∀ next ∈ gs.head?, next.isBreak = true

theorem breaks_tightenFrom_true (gs : List Glyph) : Breaks (tightenFrom true gs) := by
  induction gs with
  | nil => exact fun next hnext => by cases hnext
  | cons g gs ih =>
      cases g with
      | space => exact ih
      | token t =>
          intro next hnext
          obtain rfl := Option.some.inj hnext
          rfl

theorem spaced_tightenFrom (h : Spaced gs) (pending : Bool) : Spaced (tightenFrom pending gs) := by
  induction gs generalizing pending with
  | nil => trivial
  | cons g gs ih =>
      cases g with
      | space => exact ih h.2 true
      | token t =>
          have hrest : (Glyph.token t).isField = true → Breaks (tightenFrom false gs) := by
            intro hfield
            have hnext := h.1 hfield
            cases gs with
            | nil => exact fun next hnext => by cases hnext
            | cons g gs =>
                cases g with
                | space => exact breaks_tightenFrom_true gs
                | token u => exact hnext
          cases pending with
          | false => exact ⟨hrest, ih h.2 false⟩
          | true => exact .cons rfl ⟨hrest, ih h.2 false⟩

theorem spaced_tighten (h : Spaced gs) : Spaced (tighten gs) :=
  spaced_tightenFrom (spaced_dropWhile _ h) false

theorem breaks_closeBars (h : Breaks gs) : Breaks (Glyph.closeBars gs) := by
  induction gs with
  | nil => exact h
  | cons g gs ih =>
      unfold Glyph.closeBars
      split
      · next hbar =>
        refine ih ?_
        intro next hnext
        rw [hbar.2] at hnext
        obtain rfl := Option.some.inj hnext
        rfl
      · exact h

theorem spaced_closeBars (h : Spaced gs) : Spaced (Glyph.closeBars gs) := by
  induction gs with
  | nil => trivial
  | cons g gs ih =>
      unfold Glyph.closeBars
      split
      · exact ih h.2
      · exact ⟨fun hfield => breaks_closeBars (h.1 hfield), ih h.2⟩

theorem spaced_openBars (h : Spaced gs) : Spaced (Glyph.openBars gs) := by
  induction gs with
  | nil => trivial
  | cons g gs ih =>
      unfold Glyph.openBars
      split
      · next hbar =>
        rw [hbar.1]
        exact .cons rfl (.cons rfl (ih h.2))
      · exact ⟨fun hfield => Glyph.head?_openBars gs ▸ h.1 hfield, ih h.2⟩

theorem spaced_attach (h : Spaced gs) : Spaced (attach gs) := by
  have hhead : ∀ gs, (attach gs).head? = gs.head? := by
    intro gs
    cases gs with
    | nil =>
        rw [attach]
    | cons g gs =>
        rw [attach]
        split <;> rfl
  fun_induction attach gs with
  | case1 => trivial
  | case2 g gs hmove ih =>
      have hgs := h.2
      rw [eq_gap_append_tie hmove.2] at hgs
      obtain ⟨hgap, htail, hlast⟩ := spaced_append.1 hgs
      obtain ⟨a, letter, octave, q, rfl⟩ := exists_note hmove.1
      refine .cons rfl (.cons rfl (spaced_append.2 ⟨hgap, ih htail.2, fun g hg hfield => ?_⟩))
      -- the gap does not end with a field, since the tie came behind it
      have hbreak := hlast g hg hfield (.token .tie) rfl
      cases hbreak
  | case3 g gs hmove ih =>
      exact ⟨fun hfield => hhead gs ▸ h.1 hfield, ih h.2⟩

-- ============================================================== tidy

/-- Tidy glyphs. -/
def Glyph.tidy (gs : List Glyph) : List Glyph :=
  tighten (attach (Glyph.openBars (Glyph.closeBars (tighten gs))))

/-- A line as tidying leaves it. -/
structure Tidied (gs : List Glyph) : Prop where
  plain : ∀ g ∈ gs, g.Plain
  spaced : Spaced gs
  thin : Thin gs
  head : gs.head? ≠ some .space
  snug : Snug .opening gs

theorem after_tidy (gs : List Glyph) (s : Tying) :
    s.after (tokensOf (Glyph.tidy gs)) = s.after (tokensOf gs) := by
  unfold Glyph.tidy
  rw [tokensOf_tighten, after_attach, tokensOf_openBars, tokensOf_closeBars, tokensOf_tighten]

/-- In a line that is read, tidying is tidying its glyphs. -/
theorem tidy_spell (h : ∀ g ∈ gs, g.Plain) {s s' : Tying} (hs : s.after (tokensOf gs) = some s') :
    Line.tidy (spell gs) = spell (Glyph.tidy gs) ∧ (Spaced gs → Tidied (Glyph.tidy gs)) := by
  have hplain : ∀ {hs : List Glyph}, tokensOf hs = tokensOf gs → ∀ g ∈ hs, g.Plain := by
    intro hs htokens
    rw [plain_iff, htokens, ← plain_iff]
    exact h
  have htight := hplain (tokensOf_tighten gs)
  have hclosed : tokensOf (Glyph.closeBars (tighten gs)) = tokensOf gs := by simp
  have hopened : tokensOf (Glyph.openBars (Glyph.closeBars (tighten gs))) = tokensOf gs := by simp
  have hread : s.after (tokensOf (Glyph.openBars (Glyph.closeBars (tighten gs)))) = some s' := by
    rw [hopened]
    exact hs
  have hattached : ∀ g ∈ attach (Glyph.openBars (Glyph.closeBars (tighten gs))), g.Plain :=
    plain_iff.2 fun t ht => plain_iff.1 (hplain hopened) t (mem_tokensOf_attach ht)
  refine ⟨?_, fun hspaced => ?_⟩
  · unfold Line.tidy Glyph.tidy
    rw [squeeze_spell h, closeBars_spell htight, openBars_spell (hplain hclosed),
      attachTies_spell (hplain hopened) hread (fun hnone => by cases hnone), squeeze_spell hattached]
  · refine ⟨?_, ?_, thin_tightenFrom _ _, head?_tighten_ne_space _, ?_⟩
    · unfold Glyph.tidy
      rw [plain_iff, tokensOf_tighten, ← plain_iff]
      exact hattached
    · exact spaced_tighten (spaced_attach (spaced_openBars (spaced_closeBars (spaced_tighten hspaced))))
    · exact Snug.tighten (Snug.attach hread fun hne => absurd rfl hne)

end LyricScore
