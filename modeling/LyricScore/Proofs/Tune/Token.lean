/-
The tokens of a tune, read from its characters alone. A note is an accidental or none, a letter
with its octave marks and a length; a rest has a length only. A length is a multiplier: `3`, `/2`
or `3/2`, and nothing for one. A tuplet opens with `(3`, or with its number of notes and the
number of notes whose time they take, `(5:4`. A tie stands in front of the note it ties to the
one before. Fields stand in brackets with a letter and a colon, `[L:1/8]`; barlines are strokes.

# Reading back

A token reads back from its own characters if what stands behind them cannot be taken for a part
of it. `Fresh` says so for all tokens at once: no digit, stroke, colon or octave mark.
-/
import LyricScore.Pitch.Accidental
import LyricScore.Pitch.Letter
import LyricScore.Pitch.Spelling
import LyricScore.Proofs.Text.Decimal
import LyricScore.Proofs.Text.Split
import LyricScore.Rhythm.Subdivision

namespace LyricScore

open Text

/-- A token of a tune. -/
inductive Token where
  | bar
  | field (name : Char) (value : List Char)
  | tie
  /-- `count` notes in the time of `time`. -/
  | tuplet (count time : Nat)
  | note (accidental : Accidental) (letter : Letter) (octave : Int) (length : Rat)
  | rest (length : Rat)
  deriving DecidableEq

namespace Lexer

-- =========================================================== reading

/-- The number at the head of a text, `missing` if there is none, and what follows it. -/
def numeral (missing : Nat) (cs : List Char) : Nat × List Char :=
  let digits := cs.takeWhile isDigit
  (if digits.isEmpty then missing else digitsValue digits, cs.dropWhile isDigit)

/-- The length at the head of a text, and what follows it. A stroke alone halves. -/
def length (cs : List Char) : Rat × List Char :=
  let top := numeral 1 cs
  match top.2 with
  | '/' :: rest =>
    let bottom := numeral 2 rest
    ((top.1 : Rat) / (bottom.1 : Rat), bottom.2)
  | rest => (top.1, rest)

/-- The accidental at the head of a text, and what follows it. -/
def accidental : List Char → Accidental × List Char
  | '^' :: '^' :: rest => (.doubleSharp, rest)
  | '^' :: rest => (.sharp, rest)
  | '_' :: '_' :: rest => (.doubleFlat, rest)
  | '_' :: rest => (.flat, rest)
  | '=' :: rest => (.natural, rest)
  | rest => (.plain, rest)

/-- The letter that a character writes and its octave: capitals lie in the octave of middle C,
small letters in the one above. -/
def letter? (c : Char) : Option (Letter × Int) :=
  match Letter.ofName? (String.ofList [c]) with
  | some letter => some (letter, 5)
  | none => (Letter.ofName? (String.ofList [c.toLower])).map fun letter => (letter, 4)

/-- The mark that raises a note by an octave. -/
def apostrophe : Char := Char.ofNat 0x27

/-- Whether a character moves a note to another octave. -/
def isOctaveMark (c : Char) : Bool :=
  c == ',' || c == apostrophe

/-- The note at the head of a text, and what follows it. -/
def note? (cs : List Char) : Option (Token × List Char) :=
  let (mark, rest) := accidental cs
  match rest with
  | [] => none
  | c :: rest =>
    match letter? c with
    | none => none
    | some (letter, octave) =>
      let marks := rest.takeWhile isOctaveMark
      let long := length (rest.dropWhile isOctaveMark)
      some (.note mark letter (octave + marks.count apostrophe - marks.count ',') long.1, long.2)

/-- The tuplet that a text opens, from behind its bracket, and what follows it. -/
def tuplet? (cs : List Char) : Option (Token × List Char) :=
  let count := numeral 0 cs
  match count.2 with
  | ':' :: rest =>
    let time := numeral 0 rest
    some (.tuplet count.1 time.1, time.2)
  | rest => if count.1 = 3 then some (.tuplet 3 2, rest) else none

/-- The field at the head of a text, from behind its bracket, and what follows it. -/
def field? : List Char → Option (Token × List Char)
  | name :: ':' :: rest =>
    match rest.dropWhile (· != ']') with
    | [] => none
    | _ :: more => some (.field name (rest.takeWhile (· != ']')), more)
  | _ => none

/-- The first token of a text, and what follows it. -/
def token? : List Char → Option (Token × List Char)
  | [] => none
  | c :: rest =>
    if c = '|' then some (.bar, rest)
    else if c = '-' then some (.tie, rest)
    else if c = '[' then field? rest
    else if c = '(' then tuplet? rest
    else if c = 'z' then some (.rest (length rest).1, (length rest).2)
    else note? (c :: rest)

-- ------------------------------------------------------ termination

theorem numeral_length (missing : Nat) (cs : List Char) :
    (numeral missing cs).2.length ≤ cs.length :=
  (List.dropWhile_sublist isDigit).length_le

theorem length_length (cs : List Char) : (length cs).2.length ≤ cs.length := by
  have htop := numeral_length 1 cs
  simp only [length]
  split
  · next rest hrest =>
    rw [hrest, List.length_cons] at htop
    have hbottom := numeral_length 2 rest
    simp only
    omega
  · exact htop

theorem accidental_length (cs : List Char) : (accidental cs).2.length ≤ cs.length := by
  unfold accidental
  split <;> simp <;> omega

theorem note?_length {cs rest : List Char} {t : Token} (h : note? cs = some (t, rest)) :
    rest.length < cs.length := by
  have hmark := accidental_length cs
  simp only [note?] at h
  split at h
  · cases h
  · next c tail htail =>
    rw [htail, List.length_cons] at hmark
    split at h
    · cases h
    · obtain ⟨-, rfl⟩ := Prod.mk.inj (Option.some.inj h)
      have hmarks := (List.dropWhile_sublist isOctaveMark (l := tail)).length_le
      have hlong := length_length (tail.dropWhile isOctaveMark)
      omega

theorem tuplet?_length {cs rest : List Char} {t : Token} (h : tuplet? cs = some (t, rest)) :
    rest.length ≤ cs.length := by
  have hcount := numeral_length 0 cs
  simp only [tuplet?] at h
  split at h
  · next more hmore =>
    obtain ⟨-, rfl⟩ := Prod.mk.inj (Option.some.inj h)
    rw [hmore, List.length_cons] at hcount
    have htime := numeral_length 0 more
    omega
  · split at h
    · obtain ⟨-, rfl⟩ := Prod.mk.inj (Option.some.inj h)
      exact hcount
    · cases h

theorem field?_length {cs rest : List Char} {t : Token} (h : field? cs = some (t, rest)) :
    rest.length ≤ cs.length := by
  unfold field? at h
  split at h
  · next name more =>
    have hdrop := (List.dropWhile_sublist (· != ']') (l := more)).length_le
    split at h
    · cases h
    · next c tail htail =>
      obtain ⟨-, rfl⟩ := Prod.mk.inj (Option.some.inj h)
      rw [htail, List.length_cons] at hdrop
      simp only [List.length_cons]
      omega
  · cases h

/-- What follows a token is shorter than the text. -/
theorem token?_length {cs rest : List Char} {t : Token} (h : token? cs = some (t, rest)) :
    rest.length < cs.length := by
  unfold token? at h
  split at h
  · cases h
  · next c tail =>
    repeat' split at h
    · obtain ⟨-, rfl⟩ := Prod.mk.inj (Option.some.inj h)
      simp
    · obtain ⟨-, rfl⟩ := Prod.mk.inj (Option.some.inj h)
      simp
    · exact Nat.lt_succ_of_le (field?_length h)
    · exact Nat.lt_succ_of_le (tuplet?_length h)
    · obtain ⟨-, rfl⟩ := Prod.mk.inj (Option.some.inj h)
      exact Nat.lt_succ_of_le (length_length tail)
    · exact note?_length h

end Lexer

/-- The tokens of a text; spaces between them mean nothing. -/
def tokens (cs : List Char) : Option (List Token) :=
  match cs with
  | [] => some []
  | c :: rest =>
    if c = ' ' then tokens rest
    else
      match _h : Lexer.token? (c :: rest) with
      | none => none
      | some (t, more) => (tokens more).map (t :: ·)
termination_by cs.length
decreasing_by
  · simp
  · exact Lexer.token?_length _h

namespace Lexer

-- ====================================================== reading back

/-- A text that does not go on with the token in front of it. -/
def Fresh (rest : List Char) : Prop :=
  ∀ c, rest.head? = some c → isDigit c = false ∧ isOctaveMark c = false ∧ c ≠ '/' ∧ c ≠ ':'

theorem numeral_decimal (missing n : Nat) {rest : List Char}
    (h : ∀ c, rest.head? = some c → isDigit c = false) :
    numeral missing (Nat.toDigits 10 n ++ rest) = (n, rest) := by
  obtain ⟨htake, hdrop⟩ := takeWhile_dropWhile_append
    (fun c hc => isDigit_of_mem_toDigits (n := n) hc) h
  have hne : (Nat.toDigits 10 n).isEmpty = false := by simp [Nat.toDigits_ne_nil]
  simp only [numeral]
  rw [htake, hdrop, hne, digitsValue_toDigits]
  rfl

theorem numeral_missing (missing : Nat) {rest : List Char}
    (h : ∀ c, rest.head? = some c → isDigit c = false) :
    numeral missing rest = (missing, rest) := by
  obtain ⟨htake, hdrop⟩ := takeWhile_dropWhile_append (l := []) (r := rest) nofun h
  simp only [List.nil_append] at htake hdrop
  simp only [numeral]
  rw [htake, hdrop]
  rfl

/-- A fraction is its numerator over its denominator. -/
theorem num_div_den (q : Rat) : (q.num : Rat) / (q.den : Rat) = q := by
  have h := Rat.mkRat_self q
  rwa [Rat.mkRat_eq_div] at h

theorem length_of_numeral {cs rest : List Char} {top : Nat} (htop : numeral 1 cs = (top, rest))
    (hrest : ∀ more, rest ≠ '/' :: more) : length cs = ((top : Rat), rest) := by
  simp only [length, htop]

theorem length_of_stroke {cs more rest : List Char} {top bottom : Nat}
    (htop : numeral 1 cs = (top, '/' :: more)) (hbottom : numeral 2 more = (bottom, rest)) :
    length cs = ((top : Rat) / (bottom : Rat), rest) := by
  simp only [length, htop, hbottom]

/-- No number starts with a stroke. -/
theorem isDigit_head?_stroke (more : List Char) :
    ∀ c, ('/' :: more).head? = some c → isDigit c = false := by
  rintro c ⟨⟩
  decide

theorem natCast_toNat_num {q : Rat} (hq : 0 < q) : ((q.num.toNat : Nat) : Rat) = (q.num : Rat) := by
  rw [← Rat.intCast_natCast, Int.toNat_of_nonneg (Rat.num_nonneg.2 (Rat.le_of_lt hq))]

/-- A unit reads back as a length. -/
theorem length_unitText {q : Rat} (hq : 0 < q) {rest : List Char}
    (h : ∀ c, rest.head? = some c → isDigit c = false) :
    length ((unitText q).toList ++ rest) = (q, rest) := by
  have hread := length_of_stroke
    (numeral_decimal 1 q.num.toNat (isDigit_head?_stroke (Nat.toDigits 10 q.den ++ rest)))
    (numeral_decimal 2 q.den h)
  rw [natCast_toNat_num hq, num_div_den] at hread
  have hbottom : (decimal (q.den : Int)).toList = Nat.toDigits 10 q.den := toList_decimal q.den
  unfold unitText
  rw [String.toList_append, String.toList_append, hbottom,
    toList_decimal_of_nonneg (Rat.num_nonneg.2 (Rat.le_of_lt hq))]
  simpa using hread

/-- A length reads back. -/
theorem length_lengthText {q : Rat} (hq : 0 < q) {rest : List Char} (h : Fresh rest) :
    length ((lengthText q).toList ++ rest) = (q, rest) := by
  have hdigit : ∀ c, rest.head? = some c → isDigit c = false := fun c hc => (h c hc).1
  have hstroke : ∀ more, rest ≠ '/' :: more := by
    rintro more rfl
    exact (h '/' rfl).2.2.1 rfl
  have hvalue := num_div_den q
  unfold lengthText
  split
  · next hone =>
    subst hone
    exact length_of_numeral (numeral_missing 1 hdigit) hstroke
  split
  · next hone =>
    have hread := length_of_stroke
      (numeral_missing 1 (isDigit_head?_stroke (Nat.toDigits 10 q.den ++ rest)))
      (numeral_decimal 2 q.den hdigit)
    have hbottom : (decimal (q.den : Int)).toList = Nat.toDigits 10 q.den := toList_decimal q.den
    rw [hone] at hvalue
    rw [String.toList_append, hbottom]
    exact hread.trans (congrArg (·, rest) hvalue)
  split
  · next hone =>
    have hread := length_of_numeral (numeral_decimal 1 q.num.toNat hdigit) hstroke
    have hwhole : (q.num : Rat) = q := by
      rw [hone] at hvalue
      grind
    rw [toList_decimal_of_nonneg (Rat.num_nonneg.2 (Rat.le_of_lt hq)), hread,
      natCast_toNat_num hq, hwhole]
  · exact length_unitText hq hdigit

/-- The character of a letter in an octave, as tunes write it. -/
theorem letter?_char (letter : Letter) (octave : Int) :
    ∃ c, (if 5 ≤ octave then lower letter.name else upper letter.name).toList = [c]
      ∧ letter? c = some (letter, if 5 ≤ octave then 5 else 4) ∧ c.isAlpha = true ∧ c ≠ 'z'
      ∧ isDigit c = false := by
  split
  · cases letter
    · exact ⟨'c', by decide, by decide, by decide, by decide, by decide⟩
    · exact ⟨'d', by decide, by decide, by decide, by decide, by decide⟩
    · exact ⟨'e', by decide, by decide, by decide, by decide, by decide⟩
    · exact ⟨'f', by decide, by decide, by decide, by decide, by decide⟩
    · exact ⟨'g', by decide, by decide, by decide, by decide, by decide⟩
    · exact ⟨'a', by decide, by decide, by decide, by decide, by decide⟩
    · exact ⟨'b', by decide, by decide, by decide, by decide, by decide⟩
  · cases letter
    · exact ⟨'C', by decide, by decide, by decide, by decide, by decide⟩
    · exact ⟨'D', by decide, by decide, by decide, by decide, by decide⟩
    · exact ⟨'E', by decide, by decide, by decide, by decide, by decide⟩
    · exact ⟨'F', by decide, by decide, by decide, by decide, by decide⟩
    · exact ⟨'G', by decide, by decide, by decide, by decide, by decide⟩
    · exact ⟨'A', by decide, by decide, by decide, by decide, by decide⟩
    · exact ⟨'B', by decide, by decide, by decide, by decide, by decide⟩

theorem toList_tunePitch (letter : Letter) (octave : Int) :
    ∃ c, (tunePitch letter.name octave).toList = c :: (octaveMarks octave).toList
      ∧ letter? c = some (letter, if 5 ≤ octave then 5 else 4) ∧ c.isAlpha = true ∧ c ≠ 'z'
      ∧ isDigit c = false := by
  obtain ⟨c, hchar, hc⟩ := letter?_char letter octave
  refine ⟨c, ?_, hc⟩
  unfold tunePitch
  rw [String.toList_append, hchar]
  rfl

/-- The octave marks of a note bring it from the octave of its letter to its own. -/
theorem octaveMarks_count (octave : Int) :
    (∀ c ∈ (octaveMarks octave).toList, isOctaveMark c = true)
      ∧ (if 5 ≤ octave then 5 else 4) + ((octaveMarks octave).toList.count apostrophe : Int)
          - ((octaveMarks octave).toList.count ',' : Int) = octave := by
  unfold octaveMarks
  split
  · refine ⟨fun c hc => ?_, ?_⟩
    · rw [String.toList_ofList] at hc
      rw [(List.mem_replicate.1 hc).2]
      decide
    · simp only [String.toList_ofList, List.count_replicate, apostrophe]
      simp
      omega
  · refine ⟨fun c hc => ?_, ?_⟩
    · rw [String.toList_ofList] at hc
      rw [(List.mem_replicate.1 hc).2]
      decide
    · simp only [String.toList_ofList, List.count_replicate, apostrophe]
      simp
      omega

theorem isOctaveMark_of_isDigit {c : Char} (h : isDigit c = true) : isOctaveMark c = false := by
  cases hmark : isOctaveMark c with
  | false => rfl
  | true =>
      simp only [isOctaveMark, Bool.or_eq_true, beq_iff_eq] at hmark
      rcases hmark with rfl | rfl <;> exact absurd h (by decide)

/-- A length does not start with an octave mark. -/
theorem isOctaveMark_head?_lengthText {q : Rat} (hq : 0 < q) {rest : List Char} (h : Fresh rest) :
    ∀ c, ((lengthText q).toList ++ rest).head? = some c → isOctaveMark c = false := by
  have hnum : 0 ≤ q.num := Rat.num_nonneg.2 (Rat.le_of_lt hq)
  have hdigits : ∀ (n : Nat) (more : List Char) (c : Char),
      (Nat.toDigits 10 n ++ more).head? = some c → isOctaveMark c = false := by
    intro n more c hc
    cases hn : Nat.toDigits 10 n with
    | nil => exact absurd hn Nat.toDigits_ne_nil
    | cons d ds =>
        rw [hn] at hc
        obtain rfl : d = c := Option.some.inj hc
        exact isOctaveMark_of_isDigit (isDigit_of_mem_toDigits (hn ▸ List.mem_cons_self))
  unfold lengthText
  intro c hc
  split at hc
  · exact (h c hc).2.1
  split at hc
  · rw [String.toList_append] at hc
    obtain rfl : '/' = c := Option.some.inj hc
    decide
  split at hc
  · rw [toList_decimal_of_nonneg hnum] at hc
    exact hdigits _ _ c hc
  · rw [String.toList_append, String.toList_append, toList_decimal_of_nonneg hnum,
      List.append_assoc, List.append_assoc] at hc
    exact hdigits _ _ c hc

theorem accidental_mark (a : Accidental) {c : Char} (hc : c.isAlpha = true) (rest : List Char) :
    accidental (a.mark.toList ++ c :: rest) = (a, c :: rest) := by
  have hsharp : c ≠ '^' := by rintro rfl; exact absurd hc (by decide)
  have hflat : c ≠ '_' := by rintro rfl; exact absurd hc (by decide)
  have hnatural : c ≠ '=' := by rintro rfl; exact absurd hc (by decide)
  cases a <;> simp [Accidental.mark, accidental, hsharp, hflat, hnatural]

/-- A note reads back. -/
theorem note?_note (a : Accidental) (letter : Letter) (octave : Int) {q : Rat} (hq : 0 < q)
    {rest : List Char} (h : Fresh rest) :
    note? (a.mark.toList ++ ((tunePitch letter.name octave).toList
        ++ ((lengthText q).toList ++ rest))) = some (.note a letter octave q, rest) := by
  obtain ⟨c, hpitch, hletter, halpha, -⟩ := toList_tunePitch letter octave
  obtain ⟨hmarks, hcount⟩ := octaveMarks_count octave
  obtain ⟨htake, hdrop⟩ :=
    takeWhile_dropWhile_append hmarks (isOctaveMark_head?_lengthText hq h)
  rw [hpitch, List.cons_append]
  simp only [note?, accidental_mark a halpha, hletter, htake, hdrop, length_lengthText hq h, hcount]

/-- A tuplet's opening reads back. Three notes always take the time of two. -/
theorem tuplet?_opening (count time : Nat) (htime : count = 3 → time = 2) {rest : List Char}
    (h : Fresh rest) :
    ∃ cs, (tupletOpening count time).toList = '(' :: cs
      ∧ tuplet? (cs ++ rest) = some (.tuplet count time, rest) := by
  have hdigit : ∀ c, rest.head? = some c → isDigit c = false := fun c hc => (h c hc).1
  have hcolon : ∀ more, rest ≠ ':' :: more := by
    rintro more rfl
    exact (h ':' rfl).2.2.2 rfl
  unfold tupletOpening
  split
  · next hthree =>
    obtain rfl : count = 3 := by omega
    obtain rfl := htime rfl
    refine ⟨['3'], rfl, ?_⟩
    have hread : numeral 0 (['3'] ++ rest) = (3, rest) := numeral_decimal 0 3 hdigit
    simp only [tuplet?, hread]
    rfl
  · have hstart : ∀ (more : List Char) c, (':' :: more).head? = some c → isDigit c = false := by
      rintro more c ⟨⟩
      decide
    refine ⟨Nat.toDigits 10 count ++ (':' :: Nat.toDigits 10 time), ?_, ?_⟩
    · have hcount : (decimal (count : Int)).toList = _ := toList_decimal count
      have htime : (decimal (time : Int)).toList = _ := toList_decimal time
      simp only [String.toList_append, hcount, htime]
      simp
    · rw [List.append_assoc, List.cons_append]
      simp only [tuplet?, numeral_decimal 0 count (hstart _), numeral_decimal 0 time hdigit]

end Lexer

open Lexer

-- ============================================================ tokens

theorem tokens_nil : tokens [] = some [] := by
  rw [tokens]

theorem tokens_space (rest : List Char) : tokens (' ' :: rest) = tokens rest := by
  rw [tokens, if_pos rfl]

theorem tokens_of_token? {c : Char} {cs more : List Char} {t : Token} (hc : c ≠ ' ')
    (h : token? (c :: cs) = some (t, more)) : tokens (c :: cs) = (tokens more).map (t :: ·) := by
  rw [tokens, if_neg hc]
  split
  · next hnone => rw [h] at hnone; cases hnone
  · next t' more' hsome =>
    rw [h] at hsome
    obtain ⟨rfl, rfl⟩ := Prod.mk.inj (Option.some.inj hsome)
    rfl

theorem tokens_bar (rest : List Char) : tokens ('|' :: rest) = (tokens rest).map (.bar :: ·) :=
  tokens_of_token? (by decide) rfl

theorem tokens_tie (rest : List Char) : tokens ('-' :: rest) = (tokens rest).map (.tie :: ·) :=
  tokens_of_token? (by decide) rfl

theorem tokens_field (name : Char) {value : List Char} (hvalue : ']' ∉ value) (rest : List Char) :
    tokens ('[' :: name :: ':' :: (value ++ ']' :: rest))
      = (tokens rest).map (.field name value :: ·) := by
  obtain ⟨htake, hdrop⟩ := takeWhile_dropWhile_append (p := (· != ']')) (l := value)
    (r := ']' :: rest) (fun c hc => by simpa using fun heq : c = ']' => hvalue (heq ▸ hc))
    (by rintro c ⟨⟩; decide)
  refine tokens_of_token? (by decide) ?_
  show field? (name :: ':' :: (value ++ ']' :: rest)) = _
  simp only [field?, htake, hdrop]

theorem tokens_rest {q : Rat} (hq : 0 < q) {rest : List Char} (h : Fresh rest) :
    tokens ('z' :: ((lengthText q).toList ++ rest)) = (tokens rest).map (.rest q :: ·) := by
  refine tokens_of_token? (by decide) ?_
  show some (Token.rest (Lexer.length _).1, (Lexer.length _).2) = _
  rw [length_lengthText hq h]

theorem tokens_tuplet (count time : Nat) (htime : count = 3 → time = 2) {rest : List Char}
    (h : Fresh rest) :
    tokens ((tupletOpening count time).toList ++ rest)
      = (tokens rest).map (.tuplet count time :: ·) := by
  obtain ⟨cs, hcs, hread⟩ := tuplet?_opening count time htime h
  rw [hcs]
  exact tokens_of_token? (by decide) hread

theorem tokens_note (a : Accidental) (letter : Letter) (octave : Int) {q : Rat} (hq : 0 < q)
    {rest : List Char} (h : Fresh rest) :
    tokens (a.mark.toList ++ ((tunePitch letter.name octave).toList
        ++ ((lengthText q).toList ++ rest)))
      = (tokens rest).map (.note a letter octave q :: ·) := by
  have hread := note?_note a letter octave hq h
  obtain ⟨c, hpitch, -, halpha, hz, -⟩ := toList_tunePitch letter octave
  -- neither an accidental nor a letter starts a token of another kind
  have hstart : ∃ d tail, a.mark.toList ++ ((tunePitch letter.name octave).toList
      ++ ((lengthText q).toList ++ rest)) = d :: tail
      ∧ d ≠ ' ' ∧ d ≠ '|' ∧ d ≠ '-' ∧ d ≠ '[' ∧ d ≠ '(' ∧ d ≠ 'z' := by
    have hc : c ≠ ' ' ∧ c ≠ '|' ∧ c ≠ '-' ∧ c ≠ '[' ∧ c ≠ '(' := by
      refine ⟨?_, ?_, ?_, ?_, ?_⟩ <;> rintro rfl <;> exact absurd halpha (by decide)
    cases a
    case plain =>
      rw [hpitch]
      exact ⟨c, _, rfl, hc.1, hc.2.1, hc.2.2.1, hc.2.2.2.1, hc.2.2.2.2, hz⟩
    all_goals exact ⟨_, _, rfl, by decide, by decide, by decide, by decide, by decide, by decide⟩
  obtain ⟨d, tail, htext, hspace, hbar, htie, hfield, htuplet, hrest⟩ := hstart
  rw [htext] at hread ⊢
  refine tokens_of_token? hspace ?_
  unfold token?
  simp only [if_neg hbar, if_neg htie, if_neg hfield, if_neg htuplet, if_neg hrest]
  exact hread

end LyricScore
