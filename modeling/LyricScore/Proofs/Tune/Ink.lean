/-
What tokens are written with. A line is tidied by its spaces, barlines, brackets and ties. Notes,
rests and the openings of tuplets are written with other characters, here called ink; a field holds
ink and single spaces between its brackets. So each of these signs stands where a glyph starts, and
what tidying does to a line it does to its glyphs.
-/
import LyricScore.Proofs.Sequence
import LyricScore.Proofs.Text.Squeeze
import LyricScore.Proofs.Tune.Glyph
import LyricScore.Proofs.Tune.Tying
import LyricScore.Tune.Line

namespace LyricScore

open Text

-- =============================================================== ink

/-- Whether a character is no blank and none of the signs by which a line is tidied. -/
def isInk (c : Char) : Bool :=
  !isBlank c && c != '|' && c != '[' && c != '-'

/-- A text of ink and spaces that ends with ink. -/
def Inked (w : List Char) : Prop :=
  (∀ c ∈ w, c = ' ' ∨ isInk c = true) ∧ ∀ c ∈ w.getLast?, isInk c = true

theorem isInk_eq_true {c : Char} (h : isInk c = true) :
    isBlank c = false ∧ c ≠ '|' ∧ c ≠ '[' ∧ c ≠ '-' := by
  simpa [isInk, and_assoc] using h

theorem ne_space_of_isInk {c : Char} (h : isInk c = true) : c ≠ ' ' := by
  rintro rfl
  exact absurd h (by decide)

theorem Inked.of_forall {w : List Char} (h : ∀ c ∈ w, isInk c = true) : Inked w :=
  ⟨fun c hc => Or.inr (h c hc), fun c hc => h c (List.mem_of_getLast? hc)⟩

theorem Inked.tail {c : Char} {w : List Char} (h : Inked (c :: w)) : Inked w := by
  refine ⟨(List.forall_mem_cons.1 h.1).2, fun d hd => h.2 d ?_⟩
  cases w with
  | nil => cases hd
  | cons e w => rwa [List.getLast?_cons_cons]

/-- Behind a space there is more. -/
theorem Inked.tail_ne_nil {w : List Char} (h : Inked (' ' :: w)) : w ≠ [] := by
  rintro rfl
  exact absurd (h.2 ' ' rfl) (by decide)

theorem isInk_of_isDigit {c : Char} (h : c.isDigit = true) : isInk c = true := by
  simp only [Char.isDigit, Bool.and_eq_true, decide_eq_true_eq, UInt32.le_iff_toNat_le] at h
  have hne : ∀ d : Char, d.toNat < 48 ∨ 57 < d.toNat → c ≠ d := by
    rintro d hd rfl
    have hlow : 48 ≤ c.toNat := h.1
    have hhigh : c.toNat ≤ 57 := h.2
    omega
  have hblank : isBlank c = false := by
    have hlow : 48 ≤ c.toNat := h.1
    have hhigh : c.toNat ≤ 57 := h.2
    simp only [isBlank, Bool.or_eq_false_iff, Bool.and_eq_false_iff, decide_eq_false_iff_not,
      beq_eq_false_iff_ne]
    omega
  simp [isInk, hblank, hne '|' (by decide), hne '[' (by decide), hne '-' (by decide)]

/-- Numbers without a sign are written with ink that can end a note. -/
theorem ink_toDigits {n : Nat} {c : Char} (h : c ∈ Nat.toDigits 10 n) :
    isInk c = true ∧ Line.endsNote c = true := by
  refine ⟨isInk_of_isDigit (Nat.isDigit_of_mem_toDigits (by decide) (by decide) h), ?_⟩
  simp [Line.endsNote, isDigit_of_mem_toDigits h]

theorem ink_decimal {n : Int} (hn : 0 ≤ n) {c : Char} (h : c ∈ (decimal n).toList) :
    isInk c = true ∧ Line.endsNote c = true := by
  rw [toList_decimal_of_nonneg hn] at h
  exact ink_toDigits h

theorem ink_unitText {q : Rat} (hq : 0 < q) {c : Char} (h : c ∈ (unitText q).toList) :
    isInk c = true ∧ Line.endsNote c = true := by
  unfold unitText at h
  simp only [String.toList_append, List.mem_append] at h
  rcases h with (h | h) | h
  · exact ink_decimal (Rat.num_nonneg.2 (Rat.le_of_lt hq)) h
  · obtain rfl : c = '/' := by simpa using h
    decide
  · exact ink_decimal (Int.natCast_nonneg _) h

theorem ink_lengthText {q : Rat} (hq : 0 < q) {c : Char} (h : c ∈ (lengthText q).toList) :
    isInk c = true ∧ Line.endsNote c = true := by
  unfold lengthText at h
  split at h
  · cases h
  · split at h
    · rw [String.toList_append] at h
      rcases List.mem_append.1 h with h | h
      · obtain rfl : c = '/' := by simpa using h
        decide
      · exact ink_decimal (Int.natCast_nonneg _) h
    · split at h
      · exact ink_decimal (Rat.num_nonneg.2 (Rat.le_of_lt hq)) h
      · exact ink_unitText hq h

/-- A letter and its octave marks are ink that can end a note. -/
theorem ink_tunePitch (letter : Letter) (octave : Int) :
    (tunePitch letter.name octave).toList ≠ []
      ∧ ∀ c ∈ (tunePitch letter.name octave).toList, isInk c = true ∧ Line.endsNote c = true := by
  have hletter : (if 5 ≤ octave then lower letter.name else upper letter.name).toList ≠ []
      ∧ ∀ c ∈ (if 5 ≤ octave then lower letter.name else upper letter.name).toList,
        isInk c = true ∧ Line.endsNote c = true := by
    split
    all_goals cases letter
    all_goals exact ⟨by decide, forall_mem_of_all (by decide)⟩
  have hmarks : ∀ c ∈ (octaveMarks octave).toList, isInk c = true ∧ Line.endsNote c = true := by
    intro c hc
    rcases Bool.or_eq_true _ _ ▸ (Lexer.octaveMarks_count octave).1 c hc with hmark | hmark
    all_goals
      obtain rfl := beq_iff_eq.1 hmark
      decide
  unfold tunePitch
  rw [String.toList_append]
  exact ⟨fun hnil => hletter.1 (List.append_eq_nil_iff.1 hnil).1,
    List.forall_mem_append.2 ⟨hletter.2, hmarks⟩⟩

-- ============================================================ tokens

namespace Token

/-- A token as the lines of a tune have it: legible, and a field is for the key, the unit or the
meter and holds ink and single spaces. -/
def Plain : Token → Prop
  | .field name value => (name = 'K' ∨ name = 'L' ∨ name = 'M') ∧ ']' ∉ value ∧ Tight value
      ∧ ∀ c ∈ value, c = ' ' ∨ isInk c = true
  | t => t.Legible

variable {t : Token}

theorem Plain.legible (h : t.Plain) : t.Legible := by
  cases t with
  | field name value => exact h.2.1
  | _ => exact h

theorem Plain.isGap_field {name : Char} {value : List Char} (h : (Token.field name value).Plain) :
    (Token.field name value).isGap = true := by
  rcases h.1 with rfl | rfl | rfl <;> rfl

/-- The last character of a note can end one. -/
theorem ink_note (a : Accidental) (letter : Letter) (octave : Int) {q : Rat} (hq : 0 < q) :
    (∀ c ∈ (Token.note a letter octave q).chars, isInk c = true)
      ∧ ∃ c, (Token.note a letter octave q).chars.getLast? = some c ∧ Line.endsNote c = true := by
  obtain ⟨hne, hpitch⟩ := ink_tunePitch letter octave
  have hbody : ∀ c ∈ (tunePitch letter.name octave).toList ++ (lengthText q).toList,
      isInk c = true ∧ Line.endsNote c = true :=
    List.forall_mem_append.2 ⟨hpitch, fun c hc => ink_lengthText hq hc⟩
  have hchars : (Token.note a letter octave q).chars
      = a.mark.toList ++ ((tunePitch letter.name octave).toList ++ (lengthText q).toList) := by
    show (a.mark ++ tunePitch letter.name octave ++ lengthText q).toList = _
    rw [String.toList_append, String.toList_append, List.append_assoc]
  have hmark : ∀ c ∈ a.mark.toList, isInk c = true := by
    cases a
    all_goals exact forall_mem_of_all (by decide)
  rw [hchars]
  refine ⟨List.forall_mem_append.2 ⟨hmark, fun c hc => (hbody c hc).1⟩, ?_⟩
  have hlast : (tunePitch letter.name octave).toList ++ (lengthText q).toList ≠ [] :=
    fun hnil => hne (List.append_eq_nil_iff.1 hnil).1
  refine ⟨_, by rw [List.getLast?_append, List.getLast?_eq_some_getLast hlast, Option.some_or], ?_⟩
  exact (hbody _ (List.getLast_mem hlast)).2

/-- Notes, rests and the openings of tuplets are written with ink alone. -/
theorem Plain.ink (h : t.Plain) (hgap : t.isGap = false) (htie : t ≠ .tie) :
    t.chars ≠ [] ∧ ∀ c ∈ t.chars, isInk c = true := by
  cases t with
  | bar => cases hgap
  | tie => exact absurd rfl htie
  | field name value =>
      rw [h.isGap_field] at hgap
      cases hgap
  | tuplet count time =>
      show (tupletOpening count time).toList ≠ [] ∧ ∀ c ∈ (tupletOpening count time).toList, _
      unfold tupletOpening
      split
      · exact ⟨by decide, forall_mem_of_all (by decide)⟩
      · simp only [String.toList_append]
        refine ⟨by simp, ?_⟩
        refine List.forall_mem_append.2 ⟨List.forall_mem_append.2 ⟨List.forall_mem_append.2 ⟨?_, ?_⟩, ?_⟩, ?_⟩
        · exact forall_mem_of_all (by decide)
        · exact fun c hc => (ink_decimal (Int.natCast_nonneg _) hc).1
        · exact forall_mem_of_all (by decide)
        · exact fun c hc => (ink_decimal (Int.natCast_nonneg _) hc).1
  | note a letter octave q =>
      obtain ⟨hink, c, hlast, -⟩ := ink_note a letter octave h
      refine ⟨fun hnil => ?_, hink⟩
      rw [hnil] at hlast
      cases hlast
  | rest q =>
      show ("z" ++ lengthText q).toList ≠ [] ∧ ∀ c ∈ ("z" ++ lengthText q).toList, _
      rw [String.toList_append]
      refine ⟨by simp, List.forall_mem_append.2 ⟨forall_mem_of_all (by decide), ?_⟩⟩
      exact fun c hc => (ink_lengthText h hc).1

theorem Plain.exists_ink (h : t.Plain) (hgap : t.isGap = false) (htie : t ≠ .tie) :
    ∃ c cs, t.chars = c :: cs ∧ isInk c = true := by
  obtain ⟨hne, hink⟩ := h.ink hgap htie
  obtain ⟨c, cs, hchars⟩ := List.exists_cons_of_ne_nil hne
  exact ⟨c, cs, hchars, hink c (hchars ▸ List.mem_cons_self)⟩

/-- Behind its bracket a field is inked. -/
theorem Plain.inked_field {name : Char} {value : List Char} (h : (Token.field name value).Plain) :
    Inked (name :: ':' :: (value ++ [']'])) := by
  obtain ⟨hname, -, -, hvalue⟩ := h
  refine ⟨List.forall_mem_cons.2 ⟨Or.inr ?_, List.forall_mem_cons.2 ⟨Or.inr (by decide),
    List.forall_mem_append.2 ⟨hvalue, List.forall_mem_singleton.2 (Or.inr (by decide))⟩⟩⟩, ?_⟩
  · rcases hname with rfl | rfl | rfl <;> decide
  · intro c hc
    rw [show name :: ':' :: (value ++ [']']) = (name :: ':' :: value) ++ [']'] from rfl,
      List.getLast?_concat] at hc
    obtain rfl := Option.some.inj hc
    decide

/-- Squeezing keeps the characters of a token. -/
theorem Plain.tight (h : t.Plain) : Tight t.chars := by
  have hword : ∀ {w : List Char}, w ≠ [] → (∀ c ∈ w, isBlank c = false) → Tight w :=
    fun hne hw => Tight.of_isWord ⟨hne, hw⟩
  cases t with
  | bar => exact hword (by decide) (forall_mem_of_all (by decide))
  | tie => exact hword (by decide) (forall_mem_of_all (by decide))
  | field name value =>
      obtain ⟨hname, -, hvalue, -⟩ := h
      have hopening : Tight ['[', name, ':'] := by
        refine hword (by simp) ?_
        rcases hname with rfl | rfl | rfl <;> exact forall_mem_of_all (by decide)
      exact hopening.append (hvalue.append (hword (by decide) (forall_mem_of_all (by decide))))
  | _ =>
      obtain ⟨hne, hink⟩ := h.ink rfl (by simp)
      exact hword hne fun c hc => (isInk_eq_true (hink c hc)).1

end Token

-- ============================================================ glyphs

namespace Glyph

/-- A space or a plain token. -/
def Plain : Glyph → Prop
  | .space => True
  | .token t => t.Plain

/-- Whether a glyph may stand between a note and the note that it is tied to. -/
def isGap : Glyph → Bool
  | .space => true
  | .token t => t.isGap

/-- The first character of a glyph tells spaces, barlines, ties and the rest apart. -/
theorem Plain.exists_chars {g : Glyph} (h : g.Plain) :
    ∃ c cs, g.chars = c :: cs ∧ (c = ' ' ↔ g = .space) ∧ (c = '|' ↔ g = .token .bar)
      ∧ (c = '-' ↔ g = .token .tie) ∧ (isBlank c = true ↔ g = .space) := by
  cases g with
  | space => exact ⟨' ', [], rfl, by simp, by simp, by simp, by simp; decide⟩
  | token t =>
      have hink : t.isGap = false → t ≠ .tie → t ≠ .bar →
          ∃ c cs, (Glyph.token t).chars = c :: cs ∧ (c = ' ' ↔ Glyph.token t = .space)
            ∧ (c = '|' ↔ Glyph.token t = .token .bar) ∧ (c = '-' ↔ Glyph.token t = .token .tie)
            ∧ (isBlank c = true ↔ Glyph.token t = .space) := by
        intro hgap htie hbar
        obtain ⟨c, cs, hchars, hc⟩ := Token.Plain.exists_ink h hgap htie
        obtain ⟨hblank, hstroke, -, hdash⟩ := isInk_eq_true hc
        exact ⟨c, cs, hchars, by simp [ne_space_of_isInk hc], by simp [hstroke, hbar],
          by simp [hdash, htie], by simp [hblank]⟩
      cases t with
      | bar => exact ⟨'|', [], rfl, by simp, by simp, by simp, by simp; decide⟩
      | tie => exact ⟨'-', [], rfl, by simp, by simp, by simp, by simp; decide⟩
      | field name value => exact ⟨'[', _, rfl, by simp, by simp, by simp, by simp; decide⟩
      | _ => exact hink rfl (by simp) (by simp)

end Glyph

end LyricScore
