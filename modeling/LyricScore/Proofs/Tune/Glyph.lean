/-
The characters of a tune. A token has one spelling, and a text is a row of tokens with spaces
between some of them: its glyphs. What is spelled reads back, whatever the spaces are.

`Reads` ties a text to its tokens through its glyphs, so texts that read can be put one behind the
other. A field is the one token that ends with a bracket and may hold spaces; behind it comes a
space or a barline, or the text ends.
-/
import LyricScore.Proofs.Tune.Token

namespace LyricScore

open Text Lexer

-- ============================================================ tokens

namespace Token

/-- The characters of a token. -/
def chars : Token → List Char
  | .bar => ['|']
  | .field name value => '[' :: name :: ':' :: (value ++ [']'])
  | .tie => ['-']
  | .tuplet count time => (tupletOpening count time).toList
  | .note accidental letter octave length =>
    (accidental.mark ++ tunePitch letter.name octave ++ lengthText length).toList
  | .rest length => ("z" ++ lengthText length).toList

/-- A token that its characters tell. -/
def Legible : Token → Prop
  | .bar | .tie => True
  | .field _ value => ']' ∉ value
  | .tuplet count time => count = 3 → time = 2
  | .note _ _ _ length | .rest length => 0 < length

/-- Whether a token is a field. -/
def isField : Token → Bool
  | .field _ _ => true
  | _ => false

/-- A note starts with its accidental or its letter. -/
theorem chars_note (a : Accidental) (letter : Letter) (octave : Int) (q : Rat) :
    ∃ c cs, (Token.note a letter octave q).chars = c :: cs
      ∧ isDigit c = false ∧ isOctaveMark c = false ∧ c ≠ '/' ∧ c ≠ ':' := by
  obtain ⟨c, hpitch, -, halpha, -, hdigit⟩ := toList_tunePitch letter octave
  have hc : isDigit c = false ∧ isOctaveMark c = false ∧ c ≠ '/' ∧ c ≠ ':' := by
    refine ⟨hdigit, Bool.eq_false_iff.2 fun hmark => ?_, ?_, ?_⟩
    · rcases Bool.or_eq_true _ _ ▸ hmark with hmark | hmark
      all_goals
        obtain rfl := beq_iff_eq.1 hmark
        exact absurd halpha (by decide)
    all_goals
      rintro rfl
      exact absurd halpha (by decide)
  show ∃ d cs, (a.mark ++ tunePitch letter.name octave ++ lengthText q).toList = d :: cs ∧ _
  rw [String.toList_append, String.toList_append, hpitch]
  cases a
  case plain => exact ⟨c, _, rfl, hc⟩
  all_goals exact ⟨_, _, rfl, by decide⟩

/-- A token reads back in front of what is no part of it, and it is no part of what stands before
it. -/
theorem Legible.tokens_chars {t : Token} (h : t.Legible) {rest : List Char} (hrest : Fresh rest) :
    Fresh (t.chars ++ rest) ∧ tokens (t.chars ++ rest) = (tokens rest).map (t :: ·) := by
  have hfresh : ∀ {c : Char} {cs : List Char}, t.chars = c :: cs →
      isDigit c = false ∧ isOctaveMark c = false ∧ c ≠ '/' ∧ c ≠ ':' → Fresh (t.chars ++ rest) := by
    intro c cs hchars hc
    rw [hchars]
    intro c' hc'
    obtain rfl : c = c' := Option.some.inj hc'
    exact hc
  cases t with
  | bar => exact ⟨hfresh rfl (by decide), tokens_bar rest⟩
  | tie => exact ⟨hfresh rfl (by decide), tokens_tie rest⟩
  | field name value =>
      refine ⟨hfresh rfl (by decide), ?_⟩
      have hread := tokens_field name h rest
      simpa [chars] using hread
  | tuplet count time =>
      obtain ⟨cs, hcs, -⟩ := tuplet?_opening count time h hrest
      exact ⟨hfresh hcs (by decide), tokens_tuplet count time h hrest⟩
  | note a letter octave q =>
      obtain ⟨c, cs, hchars, hc⟩ := chars_note a letter octave q
      refine ⟨hfresh hchars hc, ?_⟩
      have hread := tokens_note a letter octave h hrest
      simpa [chars, String.toList_append] using hread
  | rest q =>
      have hchars : ("z" ++ lengthText q).toList = 'z' :: (lengthText q).toList := String.toList_append
      refine ⟨hfresh hchars (by decide), ?_⟩
      show tokens (("z" ++ lengthText q).toList ++ rest) = _
      rw [hchars]
      exact tokens_rest h hrest

end Token

-- ============================================================ glyphs

/-- A space or a token. -/
inductive Glyph where
  | space
  | token (t : Token)
  deriving DecidableEq

namespace Glyph

/-- The characters of a glyph. -/
def chars : Glyph → List Char
  | .space => [' ']
  | .token t => t.chars

/-- The token of a glyph. -/
def token? : Glyph → Option Token
  | .space => none
  | .token t => some t

/-- Whether a glyph is a field. -/
def isField : Glyph → Bool
  | .space => false
  | .token t => t.isField

/-- Whether a glyph may follow a field: a space or a barline. -/
def isBreak : Glyph → Bool
  | .space | .token .bar => true
  | _ => false

end Glyph

/-- The characters of some glyphs. -/
def spell (gs : List Glyph) : List Char :=
  gs.flatMap Glyph.chars

/-- The tokens of some glyphs. -/
def tokensOf (gs : List Glyph) : List Token :=
  gs.filterMap Glyph.token?

/-- Glyphs with a space or a barline behind every field, unless it ends the text. -/
def Spaced : List Glyph → Prop
  | [] => True
  | g :: rest => (g.isField = true → ∀ next ∈ rest.head?, next.isBreak = true) ∧ Spaced rest

@[simp] theorem spell_nil : spell [] = [] := rfl

@[simp] theorem spell_cons (g : Glyph) (gs : List Glyph) : spell (g :: gs) = g.chars ++ spell gs :=
  List.flatMap_cons

@[simp] theorem spell_append (gs hs : List Glyph) : spell (gs ++ hs) = spell gs ++ spell hs :=
  List.flatMap_append

@[simp] theorem tokensOf_nil : tokensOf [] = [] := rfl

@[simp] theorem tokensOf_space (gs : List Glyph) : tokensOf (.space :: gs) = tokensOf gs := rfl

@[simp] theorem tokensOf_token (t : Token) (gs : List Glyph) :
    tokensOf (.token t :: gs) = t :: tokensOf gs := rfl

@[simp] theorem tokensOf_append (gs hs : List Glyph) :
    tokensOf (gs ++ hs) = tokensOf gs ++ tokensOf hs :=
  List.filterMap_append

theorem mem_tokensOf {t : Token} {gs : List Glyph} : t ∈ tokensOf gs ↔ .token t ∈ gs := by
  unfold tokensOf
  rw [List.mem_filterMap]
  constructor
  · intro h
    obtain ⟨g, hg, ht⟩ := h
    cases g with
    | space => cases ht
    | token t' =>
        obtain rfl := Option.some.inj ht
        exact hg
  · intro h
    exact ⟨_, h, rfl⟩

theorem spaced_append {gs hs : List Glyph} :
    Spaced (gs ++ hs) ↔ Spaced gs ∧ Spaced hs
      ∧ ∀ g ∈ gs.getLast?, g.isField = true → ∀ next ∈ hs.head?, next.isBreak = true := by
  induction gs with
  | nil => simp [Spaced]
  | cons g gs ih =>
      cases gs with
      | nil => simp [Spaced, and_comm]
      | cons g' gs =>
          show (_ ∧ Spaced (g' :: gs ++ hs)) ↔ (_ ∧ Spaced (g' :: gs)) ∧ _
          rw [ih, and_assoc, List.getLast?_cons_cons]
          rfl

/-- What is spelled reads back. -/
theorem tokens_spell {gs : List Glyph} (h : ∀ t ∈ tokensOf gs, t.Legible) {rest : List Char}
    (hrest : Fresh rest) :
    Fresh (spell gs ++ rest)
      ∧ tokens (spell gs ++ rest) = (tokens rest).map (tokensOf gs ++ ·) := by
  induction gs with
  | nil =>
      refine ⟨hrest, ?_⟩
      show tokens rest = (tokens rest).map id
      rw [Option.map_id]
      rfl
  | cons g gs ih =>
      rw [spell_cons, List.append_assoc]
      cases g with
      | space =>
          obtain ⟨-, hread⟩ := ih h
          refine ⟨?_, ?_⟩
          · intro c hc
            obtain rfl : ' ' = c := Option.some.inj hc
            decide
          · show tokens (' ' :: (spell gs ++ rest)) = _
            rw [tokens_space]
            exact hread
      | token t =>
          obtain ⟨ht, hgs⟩ := List.forall_mem_cons.1 h
          obtain ⟨hfresh, hread⟩ := ih hgs
          obtain ⟨hfirst, htoken⟩ := ht.tokens_chars hfresh
          refine ⟨hfirst, ?_⟩
          show tokens (t.chars ++ (spell gs ++ rest)) = _
          rw [htoken, hread, Option.map_map]
          rfl

-- ============================================================= texts

/-- A text that spells the given tokens. -/
def Reads (text : String) (ts : List Token) : Prop :=
  (∀ t ∈ ts, t.Legible) ∧ ∃ gs, text.toList = spell gs ∧ tokensOf gs = ts ∧ Spaced gs

namespace Reads

theorem empty : Reads "" [] :=
  ⟨fun _ ht => absurd ht List.not_mem_nil, [], rfl, rfl, trivial⟩

theorem tokens_eq {text : String} {ts : List Token} (h : Reads text ts) :
    tokens text.toList = some ts := by
  obtain ⟨hlegible, gs, htext, rfl, -⟩ := h
  have hread := (@tokens_spell _ hlegible [] (fun _ => nofun)).2
  rwa [List.append_nil, tokens_nil, Option.map_some, List.append_nil, ← htext] at hread

/-- The spelling of one token. -/
theorem of_chars {text : String} {t : Token} (ht : t.Legible) (htext : text.toList = t.chars) :
    Reads text [t] := by
  refine ⟨List.forall_mem_singleton.2 ht, [.token t], ?_, rfl, fun _ => nofun, trivial⟩
  rw [htext]
  exact (List.append_nil _).symm

/-- Behind a text without fields another one may follow at once. -/
theorem append {text text' : String} {ts us : List Token} (h : Reads text ts)
    (hts : ∀ t ∈ ts, t.isField = false) (h' : Reads text' us) : Reads (text ++ text') (ts ++ us) := by
  obtain ⟨hlegible, gs, htext, rfl, hspaced⟩ := h
  obtain ⟨hlegible', gs', htext', rfl, hspaced'⟩ := h'
  refine ⟨List.forall_mem_append.2 ⟨hlegible, hlegible'⟩, gs ++ gs', ?_, tokensOf_append gs gs', ?_⟩
  · rw [String.toList_append, htext, htext', spell_append]
  · refine spaced_append.2 ⟨hspaced, hspaced', fun g hg hfield => ?_⟩
    cases g with
    | space => cases hfield
    | token t =>
        have hno : (Glyph.token t).isField = false := hts t (mem_tokensOf.2 (List.mem_of_getLast? hg))
        rw [hno] at hfield
        cases hfield

/-- Two texts with a space between them. -/
theorem beside {text text' : String} {ts us : List Token} (h : Reads text ts) (h' : Reads text' us) :
    Reads (text ++ " " ++ text') (ts ++ us) := by
  obtain ⟨hlegible, gs, htext, rfl, hspaced⟩ := h
  obtain ⟨hlegible', gs', htext', rfl, hspaced'⟩ := h'
  refine ⟨List.forall_mem_append.2 ⟨hlegible, hlegible'⟩, gs ++ .space :: gs', ?_, ?_, ?_⟩
  · rw [String.toList_append, String.toList_append, htext, htext', spell_append, spell_cons,
      List.append_assoc]
    rfl
  · rw [tokensOf_append, tokensOf_space]
  · refine spaced_append.2 ⟨hspaced, ⟨fun h => (Bool.false_ne_true h).elim, hspaced'⟩, ?_⟩
    intro g _ _ next hnext
    obtain rfl := Option.some.inj hnext
    rfl

theorem join {α : Type} {f : α → String} {g : α → List Token} {l : List α}
    (h : ∀ a ∈ l, Reads (f a) (g a)) (hg : ∀ a ∈ l, ∀ t ∈ g a, t.isField = false) :
    Reads (String.join (l.map f)) (l.flatMap g) := by
  induction l with
  | nil => exact empty
  | cons a l ih =>
      obtain ⟨ha, hl⟩ := List.forall_mem_cons.1 h
      obtain ⟨hga, hgl⟩ := List.forall_mem_cons.1 hg
      rw [List.map_cons, String.join_cons, List.flatMap_cons]
      exact ha.append hga (ih hl hgl)

theorem bar : Reads "|" [.bar] :=
  of_chars trivial rfl

theorem tie : Reads "-" [.tie] :=
  of_chars trivial rfl

theorem field {text : String} (name : Char) {value : String} (hvalue : ']' ∉ value.toList)
    (htext : text.toList = '[' :: name :: ':' :: (value.toList ++ [']'])) :
    Reads text [.field name value.toList] :=
  of_chars hvalue htext

theorem rest {q : Rat} (hq : 0 < q) : Reads ("z" ++ lengthText q) [.rest q] :=
  of_chars hq rfl

theorem tuplet {count time : Nat} (htime : count = 3 → time = 2) :
    Reads (tupletOpening count time) [.tuplet count time] :=
  of_chars htime rfl

theorem note (a : Accidental) (letter : Letter) (octave : Int) {q : Rat} (hq : 0 < q) :
    Reads (a.mark ++ tunePitch letter.name octave ++ lengthText q) [.note a letter octave q] :=
  of_chars hq rfl

end Reads

end LyricScore
