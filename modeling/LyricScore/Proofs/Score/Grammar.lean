/-
The grammar of scores, and where a text leaves it. The grammar is stated on its own, word by word
and line by line; the reader accepts exactly the texts of the grammar, and a text that is refused
is refused at its first chunk that is no block, with the number of one of its lines and a stretch
of that line.

# Numerals

A numeral may be too long to be read, which is no fault of the grammar. The statements are about
texts without such numerals: `DigitsFit` bounds every run of digits, wherever it stands, so it
passes from a text to its lines, words and numerals.
-/
import LyricScore.Proofs.Score.Chunks

namespace LyricScore

open Text

-- ======================================================= the grammar

/-- Digits, at least one. -/
def IsNumeral (w : List Char) : Prop :=
  w ≠ [] ∧ ∀ c ∈ w, isDigit c = true

/-- A word of a lyric line: a barline, a unit mark, or a beat. The digits in front of a beat are
all that there are; if there are any, they count at least one. -/
def IsLyricWord (w : List Char) : Prop :=
  w = ['|']
    ∨ (∃ digits, IsNumeral digits ∧ (w = '[' :: digits ++ [']'] ∨ w = '[' :: digits ++ ['.', ']']))
    ∨ (w.head? ≠ some '[' ∧ ∃ digits rest, w = digits ++ rest
        ∧ (∀ c ∈ digits, isDigit c = true) ∧ (∀ c ∈ rest.head?, isDigit c = false)
        ∧ (digits = [] ∨ 1 ≤ digitsValue digits) ∧ ∃ c ∈ rest, c ≠ '.')

/-- A pitch: octave shifts, an accidental or none, and a letter. -/
def IsPitchText (w : List Char) : Prop :=
  ∃ shifts mark letter, w = shifts ++ mark ++ [letter] ∧ (∀ c ∈ shifts, c = '^' ∨ c = '/')
    ∧ mark ∈ [[], ['#'], ['#', '#'], ['&'], ['&', '&'], ['%']]
    ∧ letter ∈ ['a', 'b', 'c', 'd', 'e', 'f', 'g']

/-- A word of a pitch line: a barline, a key signature, or pitches. -/
def IsPitchWord (w : List Char) : Prop :=
  w = ['|'] ∨ w = ['K', '0']
    ∨ (∃ sign ∈ ['#', '&'], ∃ count ∈ ['1', '2', '3', '4', '5', '6', '7'], w = ['K', sign, count])
    ∨ ∃ ps : List (List Char), ps ≠ [] ∧ (∀ p ∈ ps, IsPitchText p) ∧ w = ps.flatten

/-- A counter line: its word in any case, blanks, and digits. -/
def IsCounterLine (l : List Char) : Prop :=
  ∃ word blanks digits, l = word ++ blanks ++ digits ∧ word.map Char.toLower = "counter:".toList
    ∧ (∀ c ∈ blanks, isBlank c = true) ∧ IsNumeral digits

/-- The lines of a block. -/
def IsBlockLines : List (List Char) → Prop
  | [lyric, pitch] =>
    (∀ w ∈ Reader.lineWords lyric, IsLyricWord w) ∧ ∀ w ∈ Reader.lineWords pitch, IsPitchWord w
  | [lyric, pitch, last] =>
    ((∀ w ∈ Reader.lineWords lyric, IsLyricWord w) ∧ ∀ w ∈ Reader.lineWords pitch, IsPitchWord w)
      ∧ IsCounterLine last
  | _ => False

/-- The chunks that have to be blocks: all but a first one of a single line, the title. -/
def bodyChunks : List (List Reader.NumberedLine) → List (List Reader.NumberedLine)
  | [_] :: rest => rest
  | cs => cs

/-- No run of digits is longer than a numeral may be. -/
def DigitsFit (text : List Char) : Prop :=
  ∀ run, run <:+: text → (∀ c ∈ run, isDigit c = true) → run.length ≤ 4300

theorem DigitsFit.of_isInfix {text part : List Char} (h : DigitsFit text)
    (hin : part <:+: text) : DigitsFit part :=
  fun run hrun hdigits => h run (hrun.trans hin) hdigits

theorem DigitsFit.natural {text digits : List Char} (h : DigitsFit text)
    (hin : digits <:+: text) (hdigits : ∀ c ∈ digits, isDigit c = true) :
    natural digits = .ok (digitsValue digits) := by
  have hlength : digits.length ≤ maxDigits := h digits hin hdigits
  unfold Text.natural
  rw [if_neg (by omega)]

namespace Reader

-- ============================================================= words

/-- The reader takes the words of a lyric line that the grammar has. -/
theorem lyricWord_accepts {line : Option Int} {w : List Char} (h : DigitsFit w) :
    (∃ item, lyricWord line w = .ok item) ↔ IsLyricWord w := by
  constructor
  · rintro ⟨item, hitem⟩
    rcases lyricWord_eq_ok.1 hitem with ⟨rfl, -⟩ | ⟨digits, dotted, n, hu, -, -⟩
      | ⟨-, hhead, b, hb, -⟩
    · exact Or.inl rfl
    · obtain ⟨hne, hdigits, rfl⟩ := unitMark?_eq_some.1 hu
      refine Or.inr (Or.inl ⟨digits, ⟨hne, hdigits⟩, ?_⟩)
      cases dotted with
      | false => exact Or.inl (by simp [unitChars])
      | true => exact Or.inr (by simp [unitChars])
    · obtain ⟨hne, -, n, hn, hpos, -⟩ := beat_eq_ok.1 hb
      refine Or.inr (Or.inr ⟨hhead, w.takeWhile isDigit, w.dropWhile isDigit,
        List.takeWhile_append_dropWhile.symm, forall_mem_takeWhile w,
        fun c hc => head?_dropWhile hc, ?_, ?_⟩)
      · unfold duration at hn
        split at hn
        · next hempty => exact Or.inl (List.isEmpty_iff.1 hempty)
        · rw [h.natural (List.takeWhile_prefix isDigit).isInfix (forall_mem_takeWhile w)] at hn
          obtain rfl := Except.ok.inj hn
          exact Or.inr hpos
      · exact pieces_ne_nil_iff.1 fun hnil => hne (by rw [segments, hnil]; rfl)
  · rintro (rfl | ⟨digits, ⟨hne, hdigits⟩, hw⟩ | ⟨hhead, digits, rest, rfl, hdigits, hrest, hvalue,
      hcontent⟩)
    · exact ⟨.barline, rfl⟩
    · obtain ⟨dotted, rfl⟩ : ∃ dotted, w = unitChars digits dotted := by
        rcases hw with rfl | rfl
        · exact ⟨false, by simp [unitChars]⟩
        · exact ⟨true, by simp [unitChars]⟩
      have hin : digits <:+: unitChars digits dotted := by
        refine ⟨['['], (if dotted then ['.'] else []) ++ [']'], ?_⟩
        simp [unitChars]
      exact ⟨_, lyricWord_eq_ok.2 (Or.inr (Or.inl ⟨digits, dotted, _,
        unitMark?_eq_some.2 ⟨hne, hdigits, rfl⟩, h.natural hin hdigits, rfl⟩))⟩
    · obtain ⟨htake, hdrop⟩ := takeWhile_dropWhile_append hdigits fun c hc => hrest c hc
      have hsegments : segments rest ≠ [] := by
        simpa [segments] using pieces_ne_nil_iff.2 hcontent
      have hduration : ∃ n, duration digits = .ok n ∧ 1 ≤ n := by
        unfold duration
        rcases hvalue with rfl | hvalue
        · exact ⟨1, rfl, Nat.le_refl 1⟩
        · split
          · exact ⟨1, rfl, Nat.le_refl 1⟩
          · exact ⟨_, h.natural (List.prefix_append digits rest).isInfix hdigits, hvalue⟩
      obtain ⟨n, hn, hpos⟩ := hduration
      by_cases hbar : digits ++ rest = ['|']
      · rw [hbar]
        exact ⟨.barline, rfl⟩
      · refine ⟨.beat ⟨segments rest, n⟩, lyricWord_eq_ok.2 (Or.inr (Or.inr ⟨hbar, hhead, _, ?_,
          rfl⟩))⟩
        rw [beat_eq_ok, htake, hdrop]
        exact ⟨hsegments, rfl, n, hn, hpos, rfl⟩

/-- The texts of well-formed pitches are the pitches of the grammar. -/
theorem isPitchText_iff {w : List Char} :
    IsPitchText w ↔ ∃ p : Pitch, p.WellFormed ∧ w = p.text.toList := by
  constructor
  · rintro ⟨shifts, mark, letter, rfl, hshifts, hmark, hletter⟩
    obtain ⟨a, rfl⟩ : ∃ a : Accidental, mark = a.symbol.toList := by
      simp only [List.mem_cons, List.not_mem_nil, or_false] at hmark
      rcases hmark with rfl | rfl | rfl | rfl | rfl | rfl
      · exact ⟨.plain, rfl⟩
      · exact ⟨.sharp, rfl⟩
      · exact ⟨.doubleSharp, rfl⟩
      · exact ⟨.flat, rfl⟩
      · exact ⟨.doubleFlat, rfl⟩
      · exact ⟨.natural, rfl⟩
    refine ⟨⟨String.ofList [letter], a, String.ofList shifts⟩, ⟨?_, ?_⟩, ?_⟩
    · show String.ofList [letter] ∈ _
      simp only [List.mem_cons, List.not_mem_nil, or_false] at hletter
      rcases hletter with rfl | rfl | rfl | rfl | rfl | rfl | rfl <;> decide
    · simpa using hshifts
    · simp [Pitch.text]
  · rintro ⟨p, hp, rfl⟩
    obtain ⟨c, hc, hletter⟩ := letter_of_wellFormed hp
    refine ⟨p.shifts.toList, p.accidental.symbol.toList, c, ?_, hp.2, ?_, mem_pitchLetters.1 hc⟩
    · simp [Pitch.text, hletter]
    · cases p.accidental <;> decide

/-- The texts of well-formed key signatures are the key signatures of the grammar. -/
theorem isKeyText_iff {w : List Char} :
    (w = ['K', '0']
        ∨ ∃ sign ∈ ['#', '&'], ∃ count ∈ ['1', '2', '3', '4', '5', '6', '7'],
            w = ['K', sign, count])
      ↔ ∃ k : KeySignature, k.WellFormed ∧ w = k.text.toList := by
  constructor
  · rintro (rfl | ⟨sign, hsign, count, hcount, rfl⟩)
    · exact ⟨⟨"", 0⟩, Or.inl ⟨rfl, rfl⟩, rfl⟩
    · have hkey : keySignature? ['K', sign, count]
          = some ⟨String.ofList [sign], (count.toNat : Int) - 48⟩ := by
        simp only [List.mem_cons, List.not_mem_nil, or_false] at hsign hcount
        rcases hsign with rfl | rfl <;>
          rcases hcount with rfl | rfl | rfl | rfl | rfl | rfl | rfl <;> decide
      obtain ⟨hwf, htext⟩ := keySignature?_eq_some.1 hkey
      exact ⟨_, hwf, htext⟩
  · rintro ⟨⟨sign, count⟩, ⟨rfl, rfl⟩ | ⟨hsign, hlow, hhigh⟩, rfl⟩
    · exact Or.inl (by decide)
    · have hn : count = 1 ∨ count = 2 ∨ count = 3 ∨ count = 4 ∨ count = 5 ∨ count = 6
          ∨ count = 7 := by
        simp only at hlow hhigh
        omega
      simp only at hsign
      right
      rcases hsign with rfl | rfl
      · refine ⟨'#', by decide, ?_⟩
        rcases hn with rfl | rfl | rfl | rfl | rfl | rfl | rfl <;>
          exact exists_mem_of_any (by decide)
      · refine ⟨'&', by decide, ?_⟩
        rcases hn with rfl | rfl | rfl | rfl | rfl | rfl | rfl <;>
          exact exists_mem_of_any (by decide)

/-- The reader takes the words of a pitch line that the grammar has. -/
theorem pitchWord_accepts {line : Option Int} {w : List Char} (hne : w ≠ []) :
    (∃ items, pitchWord line w = .ok items) ↔ IsPitchWord w := by
  constructor
  · rintro ⟨items, hitems⟩
    rcases pitchWord_eq_ok.1 hitems with ⟨rfl, -⟩ | ⟨k, hk, -⟩ | ⟨-, -, ps, hps, -⟩
    · exact Or.inl rfl
    · rcases isKeyText_iff.2 ⟨k, keySignature?_eq_some.1 hk⟩ with hw | hw
      · exact Or.inr (Or.inl hw)
      · exact Or.inr (Or.inr (Or.inl hw))
    · obtain ⟨hwf, rfl⟩ := pitches_eq_ok.1 hps
      refine Or.inr (Or.inr (Or.inr ⟨ps.map (·.text.toList), ?_, fun t ht => ?_, ?_⟩))
      · rintro hnil
        rw [List.map_eq_nil_iff.1 hnil] at hne
        exact hne rfl
      · obtain ⟨p, hp, rfl⟩ := List.mem_map.1 ht
        exact isPitchText_iff.2 ⟨p, hwf p hp, rfl⟩
      · rw [List.flatMap_def]
  · have hkey : ∀ k : KeySignature, k.WellFormed → w = k.text.toList →
        ∃ items, pitchWord line w = .ok items := fun k hk hw =>
      ⟨_, pitchWord_eq_ok.2 (Or.inr (Or.inl ⟨k, keySignature?_eq_some.2 ⟨hk, hw⟩, rfl⟩))⟩
    rintro (rfl | hw | hw | ⟨ts, hts, hall, rfl⟩)
    · exact ⟨_, rfl⟩
    · obtain ⟨k, hk, hw⟩ := isKeyText_iff.1 (Or.inl hw)
      exact hkey k hk hw
    · obtain ⟨k, hk, hw⟩ := isKeyText_iff.1 (Or.inr hw)
      exact hkey k hk hw
    · obtain ⟨ps, hps, rfl⟩ : ∃ ps : List Pitch, (∀ p ∈ ps, p.WellFormed)
          ∧ ts = ps.map (·.text.toList) := by
        clear hts hne hkey
        induction ts with
        | nil => exact ⟨[], nofun, rfl⟩
        | cons t ts ih =>
            obtain ⟨p, hp, rfl⟩ := isPitchText_iff.1 (hall t List.mem_cons_self)
            obtain ⟨ps, hps, rfl⟩ := ih fun t ht => hall t (List.mem_cons_of_mem _ ht)
            exact ⟨p :: ps, List.forall_mem_cons.2 ⟨hp, hps⟩, rfl⟩
      have hread := pitches_eq_ok.2 ⟨hps, rfl⟩
      rw [← List.flatMap_def] at hne ⊢
      by_cases hbar : ps.flatMap (·.text.toList) = ['|']
      · rw [hbar]
        exact ⟨_, rfl⟩
      · refine ⟨_, pitchWord_eq_ok.2 (Or.inr (Or.inr ⟨hbar, ?_, ps, hread, rfl⟩))⟩
        cases ps with
        | nil => exact absurd rfl hne
        | cons p ps =>
            have hhead := head?_text_ne_key (hps p List.mem_cons_self)
            obtain ⟨c, -, hletter⟩ := letter_of_wellFormed (hps p List.mem_cons_self)
            rw [List.flatMap_cons, List.head?_append]
            cases ht : p.text.toList with
            | nil => simp [Pitch.text, hletter] at ht
            | cons c cs => rwa [ht] at hhead

-- ============================================================ blocks

/-- The reader takes the lyric lines that the grammar has. -/
theorem lyricLine_accepts {line : Option Int} {text : List Char} (h : DigitsFit text) :
    (∃ items, lyricLine line text = .ok items) ↔ ∀ w ∈ lineWords text, IsLyricWord w := by
  have hword : ∀ w ∈ lineWords text,
      ((∃ item, lyricWord line w = .ok item) ↔ IsLyricWord w) := by
    intro w hw
    rcases mem_lineWords hw with rfl | ⟨-, hin⟩
    · exact ⟨fun _ => Or.inl rfl, fun _ => ⟨.barline, rfl⟩⟩
    · exact lyricWord_accepts (h.of_isInfix hin)
  unfold lyricLine
  rw [exists_mapM_eq_ok]
  exact ⟨fun hall w hw => (hword w hw).1 (hall w hw), fun hall w hw => (hword w hw).2 (hall w hw)⟩

/-- The reader takes the pitch lines that the grammar has. -/
theorem pitchLine_accepts {line : Option Int} {text : List Char} :
    (∃ l, pitchLine line text = .ok l) ↔ ∀ w ∈ lineWords text, IsPitchWord w := by
  have hitems : ∀ ws : List (List Char), (∀ w ∈ ws, w ∈ lineWords text) →
      ((∃ items, pitchItems line ws = .ok items) ↔ ∀ w ∈ ws, IsPitchWord w) := by
    intro ws hws
    have hword : ∀ w ∈ ws, ((∃ items, pitchWord line w = .ok items) ↔ IsPitchWord w) :=
      fun w hw => pitchWord_accepts (isWord_of_mem_words (hws w hw)).1
    have hread := exists_mapM_eq_ok (f := pitchWord line) (l := ws)
    constructor
    · rintro ⟨items, h⟩ w hw
      obtain ⟨parts, hparts, -⟩ := bind_eq_ok.1 h
      exact (hword w hw).1 (hread.1 ⟨parts, hparts⟩ w hw)
    · intro hall
      obtain ⟨parts, hparts⟩ := hread.2 fun w hw => (hword w hw).2 (hall w hw)
      exact ⟨parts.flatten, bind_eq_ok.2 ⟨parts, hparts, rfl⟩⟩
  unfold pitchLine
  split
  · next hnil => exact ⟨fun _ => by rw [hnil]; exact nofun, fun _ => ⟨_, rfl⟩⟩
  · next first rest hcons =>
    split
    · next key hkey =>
      have hrest := hitems rest fun w hw => by rw [hcons]; exact List.mem_cons_of_mem _ hw
      rw [hcons, List.forall_mem_cons, ← hrest]
      constructor
      · rintro ⟨l, h⟩
        obtain ⟨items, h, -⟩ := bind_eq_ok.1 h
        refine ⟨?_, items, h⟩
        rcases isKeyText_iff.2 ⟨key, keySignature?_eq_some.1 hkey⟩ with hw | hw
        · exact Or.inr (Or.inl hw)
        · exact Or.inr (Or.inr (Or.inl hw))
      · rintro ⟨-, items, h⟩
        exact ⟨_, bind_eq_ok.2 ⟨items, h, rfl⟩⟩
    · have hall := hitems (first :: rest) fun w hw => by rwa [hcons]
      rw [hcons, ← hall]
      constructor
      · rintro ⟨l, h⟩
        obtain ⟨items, h, -⟩ := bind_eq_ok.1 h
        exact ⟨items, h⟩
      · rintro ⟨items, h⟩
        exact ⟨_, bind_eq_ok.2 ⟨items, h, rfl⟩⟩

/-- The reader takes the counter lines that the grammar has. -/
theorem counter_accepts {line : Option Int} {text : List Char} (h : DigitsFit text) :
    (∃ n, counter line text = .ok n) ↔ IsCounterLine text := by
  unfold counter
  constructor
  · rintro ⟨n, hn⟩
    split at hn
    · cases hn
    · next digits hdigits =>
      obtain ⟨word, blanks, rfl, hword, hblanks, hnumeral⟩ := counterDigits?_eq_some.1 hdigits
      exact ⟨word, blanks, digits, rfl, hword, hblanks, hnumeral⟩
  · rintro ⟨word, blanks, digits, rfl, hword, hblanks, hne, hdigits⟩
    rw [counterDigits?_eq_some.2 ⟨word, blanks, rfl, hword, hblanks, hne, hdigits⟩]
    exact ⟨_, h.natural (List.suffix_append (word ++ blanks) digits).isInfix hdigits⟩

theorem exists_blockOf_eq_ok {lyric pitch : NumberedLine} {last : Option NumberedLine} :
    (∃ b, blockOf lyric pitch last = .ok b)
      ↔ (∃ items, lyricLine (some lyric.1) lyric.2 = .ok items)
        ∧ (∃ l, pitchLine (some pitch.1) pitch.2 = .ok l)
        ∧ ∀ c ∈ last, ∃ n, counter (some c.1) c.2 = .ok n := by
  unfold blockOf
  constructor
  · rintro ⟨b, h⟩
    obtain ⟨items, hitems, h⟩ := bind_eq_ok.1 h
    obtain ⟨l, hl, h⟩ := bind_eq_ok.1 h
    refine ⟨⟨items, hitems⟩, ⟨l, hl⟩, ?_⟩
    rintro c rfl
    obtain ⟨n, hn, -⟩ := bind_eq_ok.1 h
    exact ⟨n, hn⟩
  · rintro ⟨⟨items, hitems⟩, ⟨l, hl⟩, hlast⟩
    cases last with
    | none => exact ⟨_, bind_eq_ok.2 ⟨items, hitems, bind_eq_ok.2 ⟨l, hl, rfl⟩⟩⟩
    | some c =>
        obtain ⟨n, hn⟩ := hlast c rfl
        exact ⟨_, bind_eq_ok.2 ⟨items, hitems, bind_eq_ok.2 ⟨l, hl,
          bind_eq_ok.2 ⟨n, hn, rfl⟩⟩⟩⟩

/-- The reader takes the chunks that are blocks of the grammar. -/
theorem block_accepts {chunk : List NumberedLine} (hne : chunk ≠ [])
    (h : ∀ l ∈ chunk, DigitsFit l.2) :
    (∃ b, block chunk = .ok b) ↔ IsBlockLines (chunk.map (·.2)) := by
  unfold block
  split
  · exact absurd rfl hne
  · exact ⟨nofun, False.elim⟩
  · next lyric pitch =>
    rw [exists_blockOf_eq_ok, lyricLine_accepts (h lyric (by simp)), pitchLine_accepts]
    exact ⟨fun hall => ⟨hall.1, hall.2.1⟩, fun hall => ⟨hall.1, hall.2, nofun⟩⟩
  · next lyric pitch last =>
    have hlast : (∀ c ∈ some last, ∃ n, counter (some c.1) c.2 = .ok n) ↔ IsCounterLine last.2 := by
      have haccepts := fun n => @counter_accepts n last.2 (h last (by simp))
      refine ⟨fun hall => (haccepts _).1 (hall last rfl), ?_⟩
      intro hcounter c hc
      obtain rfl := Option.some.inj hc
      exact (haccepts _).2 hcounter
    rw [exists_blockOf_eq_ok, lyricLine_accepts (h lyric (by simp)), pitchLine_accepts, hlast]
    exact ⟨fun hall => ⟨⟨hall.1, hall.2.1⟩, hall.2.2⟩, fun hall => ⟨hall.1.1, hall.1.2, hall.2⟩⟩
  · exact ⟨nofun, False.elim⟩

-- ============================================================ faults

/-- An error that points at a line: it gives the line's number, and its text stands there. -/
def PointsAt (e : Error) (l : NumberedLine) : Prop :=
  ∃ fault text, e = .line fault (some l.1) text ∧ text.toList <:+: l.2

theorem pointsAt_of_lyricLine {l : NumberedLine} {e : Error} (hfit : DigitsFit l.2)
    (h : lyricLine (some l.1) l.2 = .error e) : PointsAt e l := by
  obtain ⟨before, w, behind, hwords, -, hw⟩ := mapM_eq_error.1 h
  have hmem : w ∈ lineWords l.2 := by
    rw [hwords]
    simp
  rcases mem_lineWords hmem with rfl | ⟨-, hin⟩
  · cases hw
  · rcases lyricWord_eq_error hw with ⟨fault, rfl⟩ | ⟨digits, hdigits, hall, hn⟩
    · exact ⟨fault, _, rfl, by rwa [String.toList_ofList]⟩
    · rw [hfit.natural (hdigits.trans hin) hall] at hn
      cases hn

theorem pointsAt_of_pitchItems {l : NumberedLine} {ws : List (List Char)} {e : Error}
    (hws : ∀ w ∈ ws, w ∈ lineWords l.2) (h : pitchItems (some l.1) ws = .error e) :
    PointsAt e l := by
  rcases bind_eq_error.1 h with h | ⟨parts, -, h⟩
  · obtain ⟨before, w, behind, rfl, -, hw⟩ := mapM_eq_error.1 h
    rcases mem_lineWords (hws w (by simp)) with rfl | ⟨-, hin⟩
    · cases hw
    · obtain ⟨fault, left, hleft, rfl⟩ := pitchWord_eq_error hw
      refine ⟨fault, _, rfl, ?_⟩
      rw [String.toList_ofList]
      exact hleft.isInfix.trans hin
  · cases h

theorem pointsAt_of_pitchLine {l : NumberedLine} {e : Error}
    (h : pitchLine (some l.1) l.2 = .error e) : PointsAt e l := by
  unfold pitchLine at h
  split at h
  · cases h
  · next first rest hcons =>
    split at h
    · rcases bind_eq_error.1 h with h | ⟨items, -, h⟩
      · refine pointsAt_of_pitchItems (fun w hw => ?_) h
        rw [hcons]
        exact List.mem_cons_of_mem _ hw
      · cases h
    · rcases bind_eq_error.1 h with h | ⟨items, -, h⟩
      · exact pointsAt_of_pitchItems (fun w hw => by rwa [hcons]) h
      · cases h

theorem pointsAt_of_counter {l : NumberedLine} {e : Error} (hfit : DigitsFit l.2)
    (h : counter (some l.1) l.2 = .error e) : PointsAt e l := by
  unfold counter at h
  split at h
  · obtain rfl := Except.error.inj h
    exact ⟨_, _, rfl, by simp only [String.toList_ofList, List.infix_rfl]⟩
  · next digits hdigits =>
    obtain ⟨word, blanks, htext, -, -, -, hall⟩ := counterDigits?_eq_some.1 hdigits
    have hin : digits <:+: l.2 := by
      rw [htext]
      exact (List.suffix_append (word ++ blanks) digits).isInfix
    rw [hfit.natural hin hall] at h
    cases h

theorem pointsAt_of_blockOf {lyric pitch : NumberedLine} {last : Option NumberedLine} {e : Error}
    (hlyric : DigitsFit lyric.2) (hlast : ∀ c ∈ last, DigitsFit c.2)
    (h : blockOf lyric pitch last = .error e) :
    PointsAt e lyric ∨ PointsAt e pitch ∨ ∃ c ∈ last, PointsAt e c := by
  rcases bind_eq_error.1 h with h | ⟨items, -, h⟩
  · exact Or.inl (pointsAt_of_lyricLine hlyric h)
  rcases bind_eq_error.1 h with h | ⟨l, -, h⟩
  · exact Or.inr (Or.inl (pointsAt_of_pitchLine h))
  cases last with
  | none => cases h
  | some c =>
      rcases bind_eq_error.1 h with h | ⟨n, -, h⟩
      · exact Or.inr (Or.inr ⟨c, rfl, pointsAt_of_counter (hlast c rfl) h⟩)
      · cases h

/-- A chunk that is refused is refused at one of its lines. -/
theorem pointsAt_of_block {chunk : List NumberedLine} {e : Error}
    (h : ∀ l ∈ chunk, DigitsFit l.2) (he : block chunk = .error e) :
    ∃ l ∈ chunk, PointsAt e l := by
  unfold block at he
  split at he
  · cases he
  · next lyric =>
    obtain rfl := Except.error.inj he
    exact ⟨lyric, by simp, _, _, rfl, by simp only [String.toList_ofList, List.infix_rfl]⟩
  · next lyric pitch =>
    have hlast : ∀ c ∈ (none : Option NumberedLine), DigitsFit c.2 := fun c hc => by cases hc
    rcases pointsAt_of_blockOf (h lyric (by simp)) hlast he with hl | hp | ⟨c, hc, -⟩
    · exact ⟨lyric, by simp, hl⟩
    · exact ⟨pitch, by simp, hp⟩
    · cases hc
  · next lyric pitch last =>
    have hlast : ∀ c ∈ some last, DigitsFit c.2 := fun c hc =>
      Option.some.inj hc ▸ h last (by simp)
    rcases pointsAt_of_blockOf (h lyric (by simp)) hlast he with hl | hp | ⟨c, hc, hc'⟩
    · exact ⟨lyric, by simp, hl⟩
    · exact ⟨pitch, by simp, hp⟩
    · exact ⟨last, by simp, Option.some.inj hc ▸ hc'⟩
  · next extra _ =>
    obtain rfl := Except.error.inj he
    exact ⟨extra, by simp, _, _, rfl, by simp only [String.toList_ofList, List.infix_rfl]⟩

-- =========================================================== scores

/-- A score is read from the chunks that have to be blocks. -/
theorem scoreOf_eq_map (cs : List (List NumberedLine)) :
    ∃ title, scoreOf cs = ((bodyChunks cs).mapM block).map (Score.mk · title) := by
  unfold scoreOf
  split
  · next title rest =>
    refine ⟨String.ofList title.2, ?_⟩
    show _ = (rest.mapM block).map _
    cases rest.mapM block <;> rfl
  · next hno =>
    refine ⟨"", ?_⟩
    rw [bodyChunks.eq_2 cs hno]
    cases cs.mapM block <;> rfl

theorem mem_of_mem_bodyChunks {cs : List (List NumberedLine)} {c : List NumberedLine}
    (h : c ∈ bodyChunks cs) : c ∈ cs := by
  unfold bodyChunks at h
  split at h
  · exact List.mem_cons_of_mem _ h
  · exact h

end Reader

/-- The reader accepts exactly the texts of the grammar: every chunk but a title is a block. A
text that it refuses is refused at the first chunk that is no block, with the number of one of
its lines and a stretch of that line. -/
theorem Score.parse_accepts_grammar (text : String) (hfit : DigitsFit text.toList) :
    Reader.Runs (Reader.numberedLines text.toList) (Reader.chunks text.toList)
      ∧ ((∃ s, Score.parse text = .ok s)
          ↔ ∀ c ∈ bodyChunks (Reader.chunks text.toList), IsBlockLines (c.map (·.2)))
      ∧ ((¬ ∀ c ∈ bodyChunks (Reader.chunks text.toList), IsBlockLines (c.map (·.2))) →
          ∃ before bad behind, bodyChunks (Reader.chunks text.toList) = before ++ bad :: behind
            ∧ (∀ c ∈ before, IsBlockLines (c.map (·.2))) ∧ ¬ IsBlockLines (bad.map (·.2))
            ∧ ∃ (fault : Fault) (n : Nat) (part : String) (line : List Char),
                Score.parse text = .error (.line fault (some n) part) ∧ (∃ l ∈ bad, l.1 = n)
                  ∧ 1 ≤ n ∧ (lines text.toList)[n - 1]? = some line
                  ∧ part.toList <:+: line) := by
  have hlines : ∀ c ∈ bodyChunks (Reader.chunks text.toList), c ≠ [] ∧ ∀ l ∈ c, DigitsFit l.2 := by
    intro c hc
    obtain ⟨hne, hmem⟩ := Reader.mem_chunks (Reader.mem_of_mem_bodyChunks hc)
    refine ⟨hne, fun l hl => ?_⟩
    obtain ⟨-, -, raw, hraw, htrim⟩ := hmem l hl
    have hin := ((lines_parts text.toList).1 raw (List.mem_of_getElem? hraw)).1
    rw [htrim]
    exact hfit.of_isInfix ((trim_isInfix raw).trans hin)
  have haccepts : ∀ c ∈ bodyChunks (Reader.chunks text.toList),
      ((∃ b, Reader.block c = .ok b) ↔ IsBlockLines (c.map (·.2))) := fun c hc =>
    Reader.block_accepts (hlines c hc).1 (hlines c hc).2
  obtain ⟨title, hparse⟩ := Reader.scoreOf_eq_map (Reader.chunks text.toList)
  have hall : (∃ bs, (bodyChunks (Reader.chunks text.toList)).mapM Reader.block = .ok bs)
      ↔ ∀ c ∈ bodyChunks (Reader.chunks text.toList), IsBlockLines (c.map (·.2)) := by
    rw [exists_mapM_eq_ok]
    exact ⟨fun h c hc => (haccepts c hc).1 (h c hc), fun h c hc => (haccepts c hc).2 (h c hc)⟩
  unfold Score.parse
  rw [hparse]
  refine ⟨Reader.runs_chunks text.toList, ?_, fun hbad => ?_⟩
  · rw [← hall]
    constructor
    · rintro ⟨s, hs⟩
      obtain ⟨bs, hbs, -⟩ := map_eq_ok.1 hs
      exact ⟨bs, hbs⟩
    · rintro ⟨bs, hbs⟩
      exact ⟨_, map_eq_ok.2 ⟨bs, hbs, rfl⟩⟩
  · cases hread : (bodyChunks (Reader.chunks text.toList)).mapM Reader.block with
    | ok bs => exact absurd (hall.1 ⟨bs, hread⟩) hbad
    | error e =>
        obtain ⟨before, bad, behind, hsplit, hbefore, hblock⟩ := mapM_eq_error.1 hread
        have hmem : ∀ c ∈ before ++ [bad], c ∈ bodyChunks (Reader.chunks text.toList) := by
          intro c hc
          rw [hsplit]
          rcases List.mem_append.1 hc with hc | hc
          · exact List.mem_append_left _ hc
          · exact List.mem_append_right _ (List.mem_singleton.1 hc ▸ List.mem_cons_self)
        have hin := hmem bad (by simp)
        refine ⟨before, bad, behind, hsplit, fun c hc => ?_, fun hgood => ?_, ?_⟩
        · exact (haccepts c (hmem c (by simp [hc]))).1 (hbefore c hc)
        · obtain ⟨b, hb⟩ := (haccepts bad hin).2 hgood
          rw [hblock] at hb
          cases hb
        · obtain ⟨l, hl, fault, part, rfl, hpart⟩ :=
            Reader.pointsAt_of_block (hlines bad hin).2 hblock
          obtain ⟨-, hn, raw, hraw, htrim⟩ :=
            (Reader.mem_chunks (Reader.mem_of_mem_bodyChunks hin)).2 l hl
          rw [htrim] at hpart
          exact ⟨fault, l.1, part, raw, rfl, ⟨l, hl, rfl⟩, hn, hraw,
            hpart.trans (trim_isInfix raw)⟩

/-- A title, and a block with a key signature of eight sharps: refused in the third or fourth
line. -/
theorem Score.parse_accepts_grammar_eightSharps :
    DigitsFit "air\n\n2la |\n K#8".toList
      ∧ ∃ (fault : Fault) (n : Nat) (part : String),
          Score.parse "air\n\n2la |\n K#8" = .error (.line fault (some n) part)
            ∧ (n = 3 ∨ n = 4) := by
  have hfit : DigitsFit "air\n\n2la |\n K#8".toList := fun run hrun _ =>
    Nat.le_trans hrun.length_le (by decide)
  have hbody : bodyChunks (Reader.chunks "air\n\n2la |\n K#8".toList)
      = [[(3, "2la |".toList), (4, "K#8".toList)]] := by decide
  have hkey : ¬ IsPitchWord "K#8".toList := fun hword => by
    obtain ⟨items, hitems⟩ := (Reader.pitchWord_accepts (by decide)).2 hword
    exact absurd hitems (by nofun : Reader.pitchWord none "K#8".toList ≠ .ok items)
  obtain ⟨-, -, hbad⟩ := Score.parse_accepts_grammar _ hfit
  rw [hbody] at hbad
  obtain ⟨before, bad, behind, hsplit, -, -, fault, n, part, -, hparse, ⟨l, hl, rfl⟩, -⟩ :=
    hbad fun hall => hkey ((hall _ List.mem_cons_self).2 _ (by decide))
  obtain ⟨rfl, rfl, rfl⟩ : before = [] ∧ bad = [(3, "2la |".toList), (4, "K#8".toList)]
      ∧ behind = [] := by
    cases before with
    | nil => exact ⟨rfl, (List.cons.inj hsplit).1.symm, (List.cons.inj hsplit).2.symm⟩
    | cons c before => simp at hsplit
  refine ⟨hfit, fault, l.1, part, hparse, ?_⟩
  rcases List.mem_cons.1 hl with rfl | hl
  · exact Or.inl rfl
  · exact Or.inr (List.mem_singleton.1 hl ▸ rfl)

end LyricScore
