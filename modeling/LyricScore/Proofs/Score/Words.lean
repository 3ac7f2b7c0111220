/-
The words of a score. Each kind of word has one exact form, and the reader takes a word for
what its form says: a unit mark, a key signature, a run of pitches, a counter. The main
statements are equivalences, so they serve in both directions: a word that is printed is read
back, and a word that is read was written in that form.
-/
import LyricScore.Proofs.Score.Printer
import LyricScore.Proofs.Sequence
import LyricScore.Proofs.Text.Decimal
import LyricScore.Proofs.Text.Split
import LyricScore.Score.Reader

namespace LyricScore

open Text

namespace Reader

-- ======================================================== line words

/-- A space separates the words of a line. -/
theorem lineWords_append_space (a b : List Char) :
    lineWords (a ++ ' ' :: b) = lineWords a ++ lineWords b := by
  unfold lineWords words
  rw [List.flatMap_append, List.flatMap_cons]
  exact partsBetween_append_cons rfl _ _

/-- What is a word of a line, barlines apart. -/
def IsPlainWord (w : List Char) : Prop :=
  IsWord w ∧ '|' ∉ w

theorem flatMap_isolate_of_not_mem {w : List Char} (h : '|' ∉ w) :
    w.flatMap (fun c => if c = '|' then [' ', '|', ' '] else [c]) = w := by
  induction w with
  | nil => rfl
  | cons c w ih =>
      have hc : c ≠ '|' := fun hbar => h (hbar ▸ List.mem_cons_self)
      rw [List.flatMap_cons, if_neg hc, ih fun hmem => h (List.mem_cons_of_mem c hmem)]
      rfl

theorem lineWords_of_isPlainWord {w : List Char} (h : IsPlainWord w) : lineWords w = [w] := by
  unfold lineWords words
  rw [flatMap_isolate_of_not_mem h.2]
  exact partsBetween_of_forall h.1.1 h.1.2

/-- Words with spaces between them, barlines among them, are read back as those words. -/
theorem lineWords_joinWith {ws : List (List Char)}
    (h : ∀ w ∈ ws, w = ['|'] ∨ IsPlainWord w) : lineWords (joinWith [' '] ws) = ws := by
  have hone : ∀ w ∈ ws, lineWords w = [w] := by
    intro w hw
    rcases h w hw with rfl | hplain
    · rfl
    · exact lineWords_of_isPlainWord hplain
  clear h
  induction ws with
  | nil => rfl
  | cons w rest ih =>
      have hrest := ih fun v hv => hone v (List.mem_cons_of_mem w hv)
      cases rest with
      | nil =>
          rw [joinWith_singleton, hone w List.mem_cons_self]
      | cons v more =>
          rw [joinWith_cons_cons]
          show lineWords (w ++ ' ' :: joinWith [' '] (v :: more)) = _
          rw [lineWords_append_space, hrest, hone w List.mem_cons_self]
          rfl

/-- The parts of a line whose barlines are set apart: strokes, and stretches of the line without
blanks and strokes; the first part is at the front of the line. -/
theorem splitWhere_isolate (line : List Char) :
    (∀ part ∈ splitWhere isBlank
        (line.flatMap fun c => if c = '|' then [' ', '|', ' '] else [c]),
      part = ['|'] ∨ (part <:+: line ∧ '|' ∉ part))
      ∧ ∀ part parts, splitWhere isBlank
          (line.flatMap fun c => if c = '|' then [' ', '|', ' '] else [c]) = part :: parts →
        part <+: line ∧ '|' ∉ part := by
  induction line with
  | nil =>
      refine ⟨fun part hpart => Or.inr ?_, fun part parts h => ?_⟩
      · obtain rfl : part = [] := by simpa [splitWhere] using hpart
        exact ⟨List.infix_rfl, List.not_mem_nil⟩
      · obtain ⟨rfl, -⟩ : [] = part ∧ [] = parts := by simpa [splitWhere] using h
        exact ⟨List.prefix_rfl, List.not_mem_nil⟩
  | cons c rest ih =>
      obtain ⟨hall, hfirst⟩ := ih
      rw [List.flatMap_cons]
      generalize (rest.flatMap fun c => if c = '|' then [' ', '|', ' '] else [c]) = tail
        at hall hfirst ⊢
      have hlater : ∀ part ∈ splitWhere isBlank tail,
          part = ['|'] ∨ (part <:+: c :: rest ∧ '|' ∉ part) := fun part hpart =>
        (hall part hpart).imp_right fun h =>
          ⟨h.1.trans (List.suffix_cons c rest).isInfix, h.2⟩
      have hempty : ([] : List Char) <:+: c :: rest ∧ '|' ∉ ([] : List Char) :=
        ⟨List.nil_infix, List.not_mem_nil⟩
      by_cases hc : c = '|'
      · have hcut : splitWhere isBlank ([' ', '|', ' '] ++ tail)
            = [] :: ['|'] :: splitWhere isBlank tail := rfl
        rw [if_pos hc, hcut]
        refine ⟨fun part hpart => ?_, fun part parts h => ?_⟩
        · rcases List.mem_cons.1 hpart with rfl | hpart
          · exact Or.inr hempty
          · rcases List.mem_cons.1 hpart with rfl | hpart
            · exact Or.inl rfl
            · exact hlater part hpart
        · obtain ⟨rfl, -⟩ := List.cons.inj h
          exact ⟨List.nil_prefix, List.not_mem_nil⟩
      · rw [if_neg hc]
        show (∀ part ∈ splitWhere isBlank (c :: tail), _) ∧ ∀ part parts,
          splitWhere isBlank (c :: tail) = part :: parts → _
        cases hblank : isBlank c with
        | true =>
            rw [splitWhere_cons_of_pos hblank]
            refine ⟨fun part hpart => ?_, fun part parts h => ?_⟩
            · rcases List.mem_cons.1 hpart with rfl | hpart
              · exact Or.inr hempty
              · exact hlater part hpart
            · obtain ⟨rfl, -⟩ := List.cons.inj h
              exact ⟨List.nil_prefix, List.not_mem_nil⟩
        | false =>
            cases hs : splitWhere isBlank tail with
            | nil => exact absurd hs (splitWhere_ne_nil isBlank tail)
            | cons first more =>
                obtain ⟨hpre, hbar⟩ := hfirst first more hs
                have hhead : c :: first <+: c :: rest ∧ '|' ∉ c :: first := by
                  refine ⟨List.cons_prefix_cons.2 ⟨rfl, hpre⟩, fun hmem => ?_⟩
                  rcases List.mem_cons.1 hmem with hbar' | hmem
                  · exact hc hbar'.symm
                  · exact hbar hmem
                rw [splitWhere_cons_of_neg hblank hs]
                refine ⟨fun part hpart => ?_, fun part parts h => ?_⟩
                · rcases List.mem_cons.1 hpart with rfl | hpart
                  · exact Or.inr ⟨hhead.1.isInfix, hhead.2⟩
                  · exact hlater part (by rw [hs]; exact List.mem_cons_of_mem _ hpart)
                · obtain ⟨rfl, -⟩ := List.cons.inj h
                  exact hhead

/-- A word of a line is a stroke, or a stretch of the line without blanks and strokes. -/
theorem mem_lineWords {line w : List Char} (h : w ∈ lineWords line) :
    w = ['|'] ∨ (IsPlainWord w ∧ w <:+: line) := by
  have hword := isWord_of_mem_words h
  have hsplit := (List.mem_filter.1 h).1
  rcases (splitWhere_isolate line).1 w hsplit with hbar | ⟨hin, hbar⟩
  · exact Or.inl hbar
  · exact Or.inr ⟨⟨hword, hbar⟩, hin⟩

/-- A line that is not blank has words. -/
theorem lineWords_ne_nil {line : List Char} {c : Char} (hc : c ∈ line)
    (hblank : isBlank c = false) : lineWords line ≠ [] := by
  intro h
  have hall := forall_of_partsBetween_eq_nil h
  have hmem : c ∈ line.flatMap fun c => if c = '|' then [' ', '|', ' '] else [c] := by
    refine List.mem_flatMap.2 ⟨c, hc, ?_⟩
    split
    · next hbar => rw [hbar]; decide
    · exact List.mem_singleton.2 rfl
  rw [hall c hmem] at hblank
  cases hblank

-- ======================================================== unit marks

/-- The characters of a unit mark with the given digits. -/
def unitChars (digits : List Char) (dotted : Bool) : List Char :=
  '[' :: digits ++ (if dotted then ['.'] else []) ++ [']']

/-- A unit mark is digits between brackets, with or without a dot behind them. -/
theorem unitMark?_eq_some {w digits : List Char} {dotted : Bool} :
    unitMark? w = some (digits, dotted)
      ↔ digits ≠ [] ∧ (∀ c ∈ digits, isDigit c = true) ∧ w = unitChars digits dotted := by
  constructor
  · intro h
    unfold unitMark? at h
    split at h
    · next rest =>
      have hcut : rest = rest.takeWhile isDigit ++ rest.dropWhile isDigit :=
        List.takeWhile_append_dropWhile.symm
      have hdigits := forall_mem_takeWhile (p := isDigit) rest
      generalize rest.takeWhile isDigit = front at h hcut hdigits
      generalize rest.dropWhile isDigit = tail at h hcut
      have hne : front ≠ [] := by
        rintro rfl
        cases h
      rw [if_neg (by simpa using hne)] at h
      split at h
      · obtain ⟨rfl, rfl⟩ := Prod.mk.inj (Option.some.inj h)
        exact ⟨hne, hdigits, by rw [hcut]; simp [unitChars]⟩
      · obtain ⟨rfl, rfl⟩ := Prod.mk.inj (Option.some.inj h)
        exact ⟨hne, hdigits, by rw [hcut]; simp [unitChars]⟩
      · cases h
    · cases h
  · rintro ⟨hne, hdigits, rfl⟩
    have hempty : digits.isEmpty = false := by simpa using hne
    cases dotted with
    | false =>
        obtain ⟨htake, hdrop⟩ := takeWhile_dropWhile_append (r := [']']) hdigits
          (by intro c hc; obtain rfl := Option.some.inj hc; decide)
        have hw : unitChars digits false = '[' :: (digits ++ [']']) := by simp [unitChars]
        rw [hw, unitMark?, htake, hdrop, hempty]
        rfl
    | true =>
        obtain ⟨htake, hdrop⟩ := takeWhile_dropWhile_append (r := ['.', ']']) hdigits
          (by intro c hc; obtain rfl := Option.some.inj hc; decide)
        have hw : unitChars digits true = '[' :: (digits ++ ['.', ']']) := by simp [unitChars]
        rw [hw, unitMark?, htake, hdrop, hempty]
        rfl

-- ========================================================== segments

theorem ofChar?_char (m : Marker) : Marker.ofChar? m.char = some m := by
  cases m <;> rfl

theorem eq_char_of_ofChar? {c : Char} {m : Marker} (h : Marker.ofChar? c = some m) :
    c = m.char := by
  have hfound := List.find?_some h
  exact (beq_iff_eq.1 hfound).symm

/-- Syllables are written with everything but markers and points. -/
theorem isSyllableChar_eq_false {c : Char} (h : isSyllableChar c = false) :
    (∃ m : Marker, c = m.char) ∨ c = '.' := by
  cases hm : Marker.ofChar? c with
  | some m => exact Or.inl ⟨m, eq_char_of_ofChar? hm⟩
  | none =>
      refine Or.inr ?_
      unfold isSyllableChar at h
      rw [hm] at h
      simpa using h

theorem pieces_marker (m : Marker) (rest : List Char) :
    pieces (m.char :: rest) = [m.char] :: pieces rest := by
  rw [pieces.eq_def]
  simp only [ofChar?_char]
  rfl

theorem pieces_point (rest : List Char) : pieces ('.' :: rest) = pieces rest := by
  rw [pieces.eq_def]
  rfl

/-- A run of syllable characters is one piece. -/
theorem pieces_run {run rest : List Char} (hne : run ≠ [])
    (hrun : ∀ c ∈ run, isSyllableChar c = true)
    (hrest : ∀ c, rest.head? = some c → isSyllableChar c = false) :
    pieces (run ++ rest) = run :: pieces rest := by
  induction run with
  | nil => exact absurd rfl hne
  | cons c run ih =>
      have hc := hrun c List.mem_cons_self
      simp only [isSyllableChar, Bool.and_eq_true, Option.isNone_iff_eq_none, bne_iff_ne] at hc
      rw [List.cons_append, pieces.eq_def]
      simp only [hc.1, hc.2, Option.isSome_none, Bool.false_eq_true, if_false]
      cases run with
      | nil =>
          cases rest with
          | nil => rfl
          | cons d rest =>
              rw [List.nil_append]
              simp only [hrest d rfl]
              rfl
      | cons d run =>
          have hd := hrun d (List.mem_cons_of_mem c List.mem_cons_self)
          have hmore := ih (by simp) fun e he => hrun e (List.mem_cons_of_mem c he)
          rw [List.cons_append] at hmore ⊢
          simp only [hd, hmore]
          rfl

/-- Induction along the pieces of a beat: markers, points, and runs of syllable characters that
go as far as they can. -/
theorem pieces_induction {motive : List Char → Prop} (nil : motive [])
    (marker : ∀ (m : Marker) rest, motive rest → motive (m.char :: rest))
    (point : ∀ rest, motive rest → motive ('.' :: rest))
    (run : ∀ run rest, run ≠ [] → (∀ c ∈ run, isSyllableChar c = true) →
      (∀ c, rest.head? = some c → isSyllableChar c = false) → motive rest →
      motive (run ++ rest)) (cs : List Char) : motive cs := by
  suffices key : ∀ n (cs : List Char), cs.length ≤ n → motive cs from key _ cs (Nat.le_refl _)
  intro n
  induction n with
  | zero =>
      intro cs hlen
      obtain rfl := List.length_eq_zero_iff.1 (Nat.le_zero.1 hlen)
      exact nil
  | succ n ih =>
      intro cs hlen
      cases cs with
      | nil => exact nil
      | cons c rest =>
          have hrest : rest.length ≤ n := by simpa using hlen
          cases hc : isSyllableChar c with
          | false =>
              rcases isSyllableChar_eq_false hc with ⟨m, rfl⟩ | rfl
              · exact marker m rest (ih rest hrest)
              · exact point rest (ih rest hrest)
          | true =>
              have hcut : c :: rest
                  = (c :: rest.takeWhile isSyllableChar) ++ rest.dropWhile isSyllableChar := by
                rw [List.cons_append, List.takeWhile_append_dropWhile]
              have hshort := (List.dropWhile_suffix isSyllableChar (l := rest)).length_le
              rw [hcut]
              refine run _ _ (by simp) (fun d hd => ?_) (fun d hd => head?_dropWhile hd)
                (ih _ (by omega))
              rcases List.mem_cons.1 hd with rfl | hd
              · exact hc
              · exact forall_mem_takeWhile rest d hd

/-- A beat has pieces when it has more than points. -/
theorem pieces_ne_nil_iff {cs : List Char} : pieces cs ≠ [] ↔ ∃ c ∈ cs, c ≠ '.' := by
  induction cs using pieces_induction with
  | nil => simp [pieces]
  | marker m rest ih =>
      rw [pieces_marker]
      refine ⟨fun _ => ⟨m.char, List.mem_cons_self, ?_⟩, fun _ => by simp⟩
      cases m <;> decide
  | point rest ih =>
      rw [pieces_point, ih]
      simp
  | run run rest hne hrun hrest ih =>
      rw [pieces_run hne hrun hrest]
      refine ⟨fun _ => ?_, fun _ => by simp⟩
      cases run with
      | nil => exact absurd rfl hne
      | cons c run =>
          refine ⟨c, List.mem_append_left rest List.mem_cons_self, fun hpoint => ?_⟩
          have hc := hrun c List.mem_cons_self
          rw [hpoint] at hc
          cases hc

theorem segmentOf_marker (m : Marker) : segmentOf [m.char] = .marker m := by
  rw [segmentOf, ofChar?_char]

/-- A run of syllable characters is a syllable. -/
theorem segmentOf_run {run : List Char} (hrun : ∀ c ∈ run, isSyllableChar c = true) :
    segmentOf run = .syllable (String.ofList run) := by
  match run with
  | [] => rfl
  | [c] =>
      have hc := hrun c List.mem_cons_self
      simp only [isSyllableChar, Bool.and_eq_true, Option.isNone_iff_eq_none] at hc
      rw [segmentOf, hc.1]
  | c :: d :: run => rfl

theorem isSyllableChar_of_not_mem {c : Char} (h : c ∉ lyricMarks) : isSyllableChar c = true := by
  cases hc : isSyllableChar c with
  | true => rfl
  | false =>
      rcases isSyllableChar_eq_false hc with ⟨m, rfl⟩ | rfl
      · exact absurd (by cases m <;> decide) h
      · exact absurd (by decide) h

theorem not_mem_lyricMarks {c : Char} (hc : isSyllableChar c = true) (hbar : c ≠ '|') :
    c ∉ lyricMarks := by
  intro h
  simp only [lyricMarks, List.mem_cons, List.not_mem_nil, or_false] at h
  rcases h with rfl | rfl | rfl | rfl | rfl | rfl
  · cases hc
  · cases hc
  · cases hc
  · cases hc
  · cases hc
  · exact hbar rfl

/-- A segment in front of a point, or at the end of its beat, is read back. -/
theorem segments_text_append {s : Segment} (hs : s.WellFormed) {rest : List Char}
    (hrest : ∀ c, rest.head? = some c → c = '.') :
    segments (s.text.toList ++ rest) = s :: segments rest := by
  unfold segments
  cases s with
  | marker m =>
      have htext : (Segment.marker m).text.toList = [m.char] := by
        simp [Segment.text, Marker.text]
      rw [htext, List.cons_append, List.nil_append, pieces_marker, List.map_cons,
        segmentOf_marker]
  | syllable text =>
      have hrun : ∀ c ∈ text.toList, isSyllableChar c = true := fun c hc =>
        isSyllableChar_of_not_mem (hs.2 c hc).2
      have hne : text.toList ≠ [] := fun hnil => hs.1 (String.toList_eq_nil_iff.1 hnil)
      show (pieces (text.toList ++ rest)).map segmentOf = _
      rw [pieces_run hne hrun fun c hc => by rw [hrest c hc]; rfl, List.map_cons,
        segmentOf_run hrun, String.ofList_toList]

/-- Segments with points between them are read back. -/
theorem segments_joinWith {ss : List Segment} (h : ∀ s ∈ ss, s.WellFormed) :
    segments (joinWith ['.'] (ss.map (·.text.toList))) = ss := by
  induction ss with
  | nil => rfl
  | cons s ss ih =>
      have hs := h s List.mem_cons_self
      have hmore := ih fun t ht => h t (List.mem_cons_of_mem s ht)
      cases ss with
      | nil =>
          have hjoin : joinWith ['.'] ([s].map (·.text.toList)) = s.text.toList ++ [] := by
            simp
          rw [hjoin, segments_text_append hs (by simp)]
          rfl
      | cons t ss =>
          have hjoin : joinWith ['.'] ((s :: t :: ss).map (·.text.toList))
              = s.text.toList ++ '.' :: joinWith ['.'] ((t :: ss).map (·.text.toList)) := by
            rw [List.map_cons, List.map_cons, joinWith_cons_cons]
            rfl
          rw [hjoin, segments_text_append hs (by simp)]
          unfold segments at hmore ⊢
          rw [pieces_point, hmore]

/-- What is read from a word without strokes are well-formed segments. -/
theorem wellFormed_of_mem_segments {w : List Char}
    (hw : ∀ c ∈ w, isBlank c = false ∧ c ≠ '|') :
    ∀ s ∈ segments w, s.WellFormed := by
  unfold segments
  induction w using pieces_induction with
  | nil => exact fun s hs => absurd hs List.not_mem_nil
  | marker m rest ih =>
      rw [pieces_marker, List.map_cons, segmentOf_marker]
      intro s hs
      rcases List.mem_cons.1 hs with rfl | hs
      · trivial
      · exact ih (fun c hc => hw c (List.mem_cons_of_mem _ hc)) s hs
  | point rest ih =>
      rw [pieces_point]
      exact ih fun c hc => hw c (List.mem_cons_of_mem _ hc)
  | run run rest hne hrun hrest ih =>
      rw [pieces_run hne hrun hrest, List.map_cons, segmentOf_run hrun]
      intro s hs
      rcases List.mem_cons.1 hs with rfl | hs
      · refine ⟨fun hnil => hne ?_, fun c hc => ?_⟩
        · simpa using hnil
        · have hmem : c ∈ run := by simpa using hc
          have hwc := hw c (List.mem_append_left rest hmem)
          exact ⟨hwc.1, not_mem_lyricMarks (hrun c hmem) hwc.2⟩
      · exact ih (fun c hc => hw c (List.mem_append_right run hc)) s hs

-- =================================================== key signatures

/-- The characters from one to seven. -/
theorem eq_of_signCount {c : Char} (h : '1' ≤ c ∧ c ≤ '7') :
    c ∈ ['1', '2', '3', '4', '5', '6', '7'] := by
  have hlow : 49 ≤ c.toNat := UInt32.le_iff_toNat_le.1 h.1
  have hhigh : c.toNat ≤ 55 := UInt32.le_iff_toNat_le.1 h.2
  rw [← Char.ofNat_toNat c]
  generalize c.toNat = n at hlow hhigh
  have hn : n = 49 ∨ n = 50 ∨ n = 51 ∨ n = 52 ∨ n = 53 ∨ n = 54 ∨ n = 55 := by omega
  rcases hn with rfl | rfl | rfl | rfl | rfl | rfl | rfl <;> decide

/-- A word is read as a key signature when it is the text of one. -/
theorem keySignature?_eq_some {w : List Char} {k : KeySignature} :
    keySignature? w = some k ↔ k.WellFormed ∧ w = k.text.toList := by
  constructor
  · intro h
    unfold keySignature? at h
    split at h
    · obtain rfl := Option.some.inj h
      exact ⟨Or.inl ⟨rfl, rfl⟩, rfl⟩
    · next sign count _ =>
      split at h
      · next hform =>
        obtain rfl := Option.some.inj h
        have hcount := eq_of_signCount hform.2
        simp only [List.mem_cons, List.not_mem_nil, or_false] at hcount
        rcases hform.1 with rfl | rfl <;>
          rcases hcount with rfl | rfl | rfl | rfl | rfl | rfl | rfl <;>
          exact ⟨Or.inr ⟨by decide, by decide, by decide⟩, by decide⟩
      · cases h
    · cases h
  · rintro ⟨hform, rfl⟩
    obtain ⟨sign, count⟩ := k
    rcases hform with ⟨rfl, rfl⟩ | ⟨rfl | rfl, hlow, hhigh⟩
    · rfl
    all_goals
      simp only at hlow hhigh
      have hn : count = 1 ∨ count = 2 ∨ count = 3 ∨ count = 4 ∨ count = 5 ∨ count = 6
          ∨ count = 7 := by omega
      rcases hn with rfl | rfl | rfl | rfl | rfl | rfl | rfl <;> decide

-- =========================================================== pitches

/-- The letters from a to g as characters. -/
theorem mem_pitchLetters {c : Char} :
    ('a' ≤ c ∧ c ≤ 'g') ↔ c ∈ ['a', 'b', 'c', 'd', 'e', 'f', 'g'] := by
  constructor
  · intro h
    have hlow : 97 ≤ c.toNat := UInt32.le_iff_toNat_le.1 h.1
    have hhigh : c.toNat ≤ 103 := UInt32.le_iff_toNat_le.1 h.2
    rw [← Char.ofNat_toNat c]
    generalize c.toNat = n at hlow hhigh
    have hn : n = 97 ∨ n = 98 ∨ n = 99 ∨ n = 100 ∨ n = 101 ∨ n = 102 ∨ n = 103 := by omega
    rcases hn with rfl | rfl | rfl | rfl | rfl | rfl | rfl <;> decide
  · intro h
    simp only [List.mem_cons, List.not_mem_nil, or_false] at h
    rcases h with rfl | rfl | rfl | rfl | rfl | rfl | rfl <;> decide

/-- A well-formed pitch has one letter from a to g. -/
theorem letter_of_wellFormed {p : Pitch} (h : p.WellFormed) :
    ∃ c, ('a' ≤ c ∧ c ≤ 'g') ∧ p.letter = String.ofList [c] := by
  have hmem := h.1
  simp only [List.mem_cons, List.not_mem_nil, or_false] at hmem
  rcases hmem with h | h | h | h | h | h | h
  · exact ⟨'a', by decide, h⟩
  · exact ⟨'b', by decide, h⟩
  · exact ⟨'c', by decide, h⟩
  · exact ⟨'d', by decide, h⟩
  · exact ⟨'e', by decide, h⟩
  · exact ⟨'f', by decide, h⟩
  · exact ⟨'g', by decide, h⟩

theorem isShift_iff {c : Char} : isShift c = true ↔ c = '^' ∨ c = '/' := by
  simp [isShift]

/-- An accidental and what follows it make up the text. -/
theorem symbol_append_accidental (cs : List Char) :
    (accidental cs).1.symbol.toList ++ (accidental cs).2 = cs := by
  unfold accidental
  split <;> simp [Accidental.symbol]

/-- In front of a letter an accidental is read in full. -/
theorem accidental_symbol_append (a : Accidental) {c : Char} (hc : 'a' ≤ c ∧ c ≤ 'g')
    (rest : List Char) : accidental (a.symbol.toList ++ c :: rest) = (a, c :: rest) := by
  have hmem := mem_pitchLetters.1 hc
  simp only [List.mem_cons, List.not_mem_nil, or_false] at hmem
  rcases hmem with rfl | rfl | rfl | rfl | rfl | rfl | rfl <;> cases a <;> rfl

/-- No accidental and no letter is a shift. -/
theorem isShift_head?_symbol_append (a : Accidental) {c : Char} (hc : 'a' ≤ c ∧ c ≤ 'g')
    (rest : List Char) :
    ∀ d, (a.symbol.toList ++ c :: rest).head? = some d → isShift d = false := by
  have hmem := mem_pitchLetters.1 hc
  simp only [List.mem_cons, List.not_mem_nil, or_false] at hmem
  intro d hd
  cases a with
  | plain =>
      obtain rfl : c = d := Option.some.inj hd
      rcases hmem with rfl | rfl | rfl | rfl | rfl | rfl | rfl <;> decide
  | sharp | doubleSharp =>
      obtain rfl : '#' = d := Option.some.inj hd
      decide
  | flat | doubleFlat =>
      obtain rfl : '&' = d := Option.some.inj hd
      decide
  | natural =>
      obtain rfl : '%' = d := Option.some.inj hd
      decide

/-- A pitch is read from the front of a text when the text starts with that pitch. -/
theorem pitch?_eq_some {cs rest : List Char} {p : Pitch} :
    pitch? cs = some (p, rest) ↔ p.WellFormed ∧ cs = p.text.toList ++ rest := by
  constructor
  · intro h
    have hcut : cs = cs.takeWhile isShift ++ cs.dropWhile isShift :=
      List.takeWhile_append_dropWhile.symm
    have hshifts := forall_mem_takeWhile (p := isShift) cs
    have hsymbol := symbol_append_accidental (cs.dropWhile isShift)
    simp only [pitch?] at h
    split at h
    · cases h
    · next c tail hrest =>
      rw [hrest] at hsymbol
      split at h
      · next hc =>
        obtain ⟨rfl, rfl⟩ := Prod.mk.inj (Option.some.inj h)
        have hletter : String.ofList [c] ∈ ["a", "b", "c", "d", "e", "f", "g"] := by
          have hmem := mem_pitchLetters.1 hc
          simp only [List.mem_cons, List.not_mem_nil, or_false] at hmem
          rcases hmem with rfl | rfl | rfl | rfl | rfl | rfl | rfl <;> decide
        refine ⟨⟨hletter, fun d hd => ?_⟩, ?_⟩
        · exact isShift_iff.1 (hshifts d (by simpa using hd))
        · conv => lhs; rw [hcut, ← hsymbol]
          simp [Pitch.text]
      · cases h
  · rintro ⟨hform, rfl⟩
    obtain ⟨c, hc, hletter⟩ := letter_of_wellFormed hform
    have htext : p.text.toList ++ rest
        = p.shifts.toList ++ (p.accidental.symbol.toList ++ c :: rest) := by
      simp [Pitch.text, hletter]
    obtain ⟨htake, hdrop⟩ := takeWhile_dropWhile_append (p := isShift) (l := p.shifts.toList)
      (fun d hd => isShift_iff.2 (hform.2 d hd))
      (isShift_head?_symbol_append p.accidental hc rest)
    rw [htext]
    simp only [pitch?]
    rw [htake, hdrop, accidental_symbol_append p.accidental hc rest]
    simp only [if_pos hc, String.ofList_toList, ← hletter]

/-- A word is read as pitches when it is the texts of these pitches. -/
theorem pitches_eq_ok {cs : List Char} {ps : List Pitch} :
    pitches cs = .ok ps
      ↔ (∀ p ∈ ps, p.WellFormed) ∧ cs = ps.flatMap (·.text.toList) := by
  constructor
  · intro h
    fun_induction pitches cs generalizing ps with
    | case1 =>
        obtain rfl := Except.ok.inj h
        exact ⟨fun p hp => absurd hp List.not_mem_nil, rfl⟩
    | case2 c tail hnone => cases h
    | case3 c tail p rest hp left hleft ih => cases h
    | case4 c tail p rest hp more hmore ih =>
        obtain rfl := Except.ok.inj h
        obtain ⟨hform, htext⟩ := pitch?_eq_some.1 hp
        obtain ⟨hall, hrest⟩ := ih hmore
        refine ⟨fun q hq => ?_, by rw [List.flatMap_cons, ← hrest, htext]⟩
        rcases List.mem_cons.1 hq with rfl | hq
        · exact hform
        · exact hall q hq
  · rintro ⟨hall, rfl⟩
    induction ps with
    | nil => rw [List.flatMap_nil, pitches]
    | cons p ps ih =>
        have hp : pitch? (p.text.toList ++ ps.flatMap (·.text.toList))
            = some (p, ps.flatMap (·.text.toList)) :=
          pitch?_eq_some.2 ⟨hall p List.mem_cons_self, rfl⟩
        have hmore := ih fun q hq => hall q (List.mem_cons_of_mem p hq)
        rw [List.flatMap_cons]
        cases hcs : p.text.toList ++ ps.flatMap (·.text.toList) with
        | nil =>
            rw [hcs] at hp
            cases hp
        | cons c tail =>
            rw [hcs] at hp
            rw [pitches]
            split
            · next hnone => rw [hp] at hnone; cases hnone
            · next q rest hsome =>
              rw [hp] at hsome
              obtain ⟨rfl, rfl⟩ := Prod.mk.inj (Option.some.inj hsome)
              rw [hmore]

/-- What is left over when pitches cannot be read is the end of the word. -/
theorem suffix_of_pitches_eq_error {cs left : List Char} (h : pitches cs = .error left) :
    left <:+ cs := by
  fun_induction pitches cs with
  | case1 => cases h
  | case2 c tail hnone =>
      obtain rfl := Except.error.inj h
      exact List.suffix_rfl
  | case3 c tail p rest hp left' hleft ih =>
      obtain rfl := Except.error.inj h
      obtain ⟨-, htext⟩ := pitch?_eq_some.1 hp
      exact (ih hleft).trans ⟨p.text.toList, htext.symm⟩
  | case4 c tail p rest hp more hmore ih => cases h

-- ========================================================== counters

/-- The scripts' digits lie between the blanks. -/
theorem zeroDigits_between : ∀ z ∈ zeroDigits,
    (32 < z ∧ z + 10 ≤ 0x85) ∨ (0xA0 < z ∧ z + 10 ≤ 0x1680) ∨ (0x1680 < z ∧ z + 10 ≤ 0x2000)
      ∨ 0x3000 < z := by
  decide

/-- No blank is a digit. -/
theorem isDigit_of_isBlank {c : Char} (h : isBlank c = true) : isDigit c = false := by
  simp only [isBlank, Bool.or_eq_true, Bool.and_eq_true, decide_eq_true_eq, beq_iff_eq] at h
  have hnone : (zeroDigits.find? fun z => z ≤ c.toNat && c.toNat < z + 10) = none := by
    refine List.find?_eq_none.2 fun z hz hrange => ?_
    simp only [Bool.and_eq_true, decide_eq_true_eq] at hrange
    have hbetween := zeroDigits_between z hz
    omega
  unfold isDigit digitValue?
  rw [hnone]
  rfl

/-- A counter line is the word for it in any case, blanks, and digits. -/
theorem counterDigits?_eq_some {line digits : List Char} :
    counterDigits? line = some digits
      ↔ ∃ word blanks, line = word ++ blanks ++ digits ∧ word.map Char.toLower = counterWord
          ∧ (∀ c ∈ blanks, isBlank c = true) ∧ digits ≠ []
          ∧ ∀ c ∈ digits, isDigit c = true := by
  constructor
  · intro h
    simp only [counterDigits?] at h
    split at h
    · next hform =>
      obtain rfl := Option.some.inj h
      refine ⟨line.take counterWord.length,
        (line.drop counterWord.length).takeWhile isBlank, ?_, hform.1,
        forall_mem_takeWhile _, hform.2.1, List.all_eq_true.1 hform.2.2⟩
      rw [List.append_assoc, List.takeWhile_append_dropWhile, List.take_append_drop]
    · cases h
  · rintro ⟨word, blanks, rfl, hword, hblanks, hne, hdigits⟩
    have hlength : word.length = counterWord.length := by
      rw [← hword, List.length_map]
    obtain ⟨-, hdrop⟩ := takeWhile_dropWhile_append (r := digits) hblanks
      (fun c hc => by
        have hmem : c ∈ digits := List.mem_of_head? hc
        cases hblank : isBlank c with
        | false => rfl
        | true =>
            have hdigit := hdigits c hmem
            rw [isDigit_of_isBlank hblank] at hdigit
            cases hdigit)
    have htake : (word ++ blanks ++ digits).take counterWord.length = word := by
      rw [List.append_assoc, ← hlength, List.take_left]
    have hrest : (word ++ blanks ++ digits).drop counterWord.length = blanks ++ digits := by
      rw [List.append_assoc, ← hlength, List.drop_left]
    simp only [counterDigits?]
    rw [htake, hrest, hdrop, if_pos ⟨hword, hne, List.all_eq_true.2 hdigits⟩]

-- ================================================= words of a line

/-- When a beat is read, and as what. -/
theorem beat_eq_ok {line : Option Int} {w : List Char} {b : LyricBeat} :
    beat line w = .ok b
      ↔ segments (w.dropWhile isDigit) ≠ [] ∧ segments (w.dropWhile isDigit) = b.segments
          ∧ ∃ n, duration (w.takeWhile isDigit) = .ok n ∧ 1 ≤ n ∧ b.duration = n := by
  simp only [beat, List.isEmpty_iff]
  split
  · next hnil =>
    refine ⟨nofun, fun h => absurd hnil h.1⟩
  · next hne =>
    cases hd : duration (w.takeWhile isDigit) with
    | error e =>
        refine ⟨nofun, fun h => ?_⟩
        obtain ⟨-, -, n, hn, -⟩ := h
        cases hn
    | ok n =>
        cases n with
        | zero =>
            refine ⟨nofun, fun h => ?_⟩
            obtain ⟨-, -, n, hn, hpos, -⟩ := h
            obtain rfl := Except.ok.inj hn
            exact absurd hpos (by decide)
        | succ n =>
            refine ⟨fun h => ?_, fun h => ?_⟩
            · obtain rfl := Except.ok.inj h
              exact ⟨hne, rfl, n + 1, rfl, by omega, rfl⟩
            · obtain ⟨-, hsegments, m, hm, -, hduration⟩ := h
              obtain rfl := Except.ok.inj hm
              show Except.ok (LyricBeat.mk (segments (w.dropWhile isDigit)) (n + 1 : Nat)) = _
              rw [hsegments, ← hduration]

/-- A beat is refused with the word in the complaint, or because its numeral is too long. -/
theorem beat_eq_error {line : Option Int} {w : List Char} {e : Error}
    (h : beat line w = .error e) :
    (∃ fault, e = .line fault line (String.ofList w))
      ∨ natural (w.takeWhile isDigit) = .error e := by
  simp only [beat] at h
  split at h
  · exact Or.inl ⟨_, (Except.error.inj h).symm⟩
  · cases hd : duration (w.takeWhile isDigit) with
    | error d =>
        rw [hd] at h
        obtain rfl := Except.error.inj h
        unfold duration at hd
        split at hd
        · cases hd
        · exact Or.inr hd
    | ok n =>
        rw [hd] at h
        cases n with
        | zero => exact Or.inl ⟨_, (Except.error.inj h).symm⟩
        | succ n => cases h

/-- A unit mark starts with its bracket. -/
theorem unitMark?_of_head? {w : List Char} (h : w.head? ≠ some '[') : unitMark? w = none := by
  cases hu : unitMark? w with
  | none => rfl
  | some m =>
      obtain ⟨digits, dotted⟩ := m
      obtain ⟨-, -, rfl⟩ := unitMark?_eq_some.1 hu
      exact absurd rfl h

/-- When a word of a lyric line is read, and as what. -/
theorem lyricWord_eq_ok {line : Option Int} {w : List Char} {item : LyricItem} :
    lyricWord line w = .ok item
      ↔ (w = ['|'] ∧ item = .barline)
        ∨ (∃ digits dotted n, unitMark? w = some (digits, dotted) ∧ natural digits = .ok n
            ∧ item = .unit ⟨n, dotted⟩)
        ∨ (w ≠ ['|'] ∧ w.head? ≠ some '[' ∧ ∃ b, beat line w = .ok b ∧ item = .beat b) := by
  by_cases hbar : w = ['|']
  · subst hbar
    refine ⟨fun h => Or.inl ⟨rfl, (Except.ok.inj h).symm⟩, fun h => ?_⟩
    rcases h with ⟨-, rfl⟩ | ⟨digits, dotted, n, hu, -⟩ | ⟨hne, -⟩
    · rfl
    · cases hu
    · exact absurd rfl hne
  · unfold lyricWord
    rw [if_neg hbar]
    cases hu : unitMark? w with
    | some m =>
        obtain ⟨digits, dotted⟩ := m
        show (natural digits >>= fun n => pure (LyricItem.unit ⟨n, dotted⟩)) = .ok item ↔ _
        rw [bind_eq_ok]
        refine ⟨fun h => ?_, fun h => ?_⟩
        · obtain ⟨n, hn, hitem⟩ := h
          exact Or.inr (Or.inl ⟨digits, dotted, n, rfl, hn, (Except.ok.inj hitem).symm⟩)
        · rcases h with ⟨hw, -⟩ | ⟨ds, d, n, hsome, hn, hitem⟩ | ⟨-, hhead, -⟩
          · exact absurd hw hbar
          · obtain ⟨rfl, rfl⟩ := Prod.mk.inj (Option.some.inj hsome)
            exact ⟨n, hn, by rw [hitem]; rfl⟩
          · rw [unitMark?_of_head? hhead] at hu
            cases hu
    | none =>
        show (if w.head? = some '[' then Except.error _ else _) = .ok item ↔ _
        split
        · next hhead =>
          refine ⟨nofun, fun h => ?_⟩
          rcases h with ⟨hw, -⟩ | ⟨ds, d, n, hsome, -⟩ | ⟨-, hne, -⟩
          · exact absurd hw hbar
          · cases hsome
          · exact absurd hhead hne
        · next hhead =>
          show (beat line w >>= fun b => pure (LyricItem.beat b)) = .ok item ↔ _
          rw [bind_eq_ok]
          refine ⟨fun h => ?_, fun h => ?_⟩
          · obtain ⟨b, hb, hitem⟩ := h
            exact Or.inr (Or.inr ⟨hbar, hhead, b, hb, (Except.ok.inj hitem).symm⟩)
          · rcases h with ⟨hw, -⟩ | ⟨ds, d, n, hsome, -⟩ | ⟨-, -, b, hb, rfl⟩
            · exact absurd hw hbar
            · cases hsome
            · exact ⟨b, hb, rfl⟩

/-- A word of a lyric line is refused with the word in the complaint, or because a numeral in it
is too long. -/
theorem lyricWord_eq_error {line : Option Int} {w : List Char} {e : Error}
    (h : lyricWord line w = .error e) :
    (∃ fault, e = .line fault line (String.ofList w))
      ∨ ∃ digits, digits <:+: w ∧ (∀ c ∈ digits, isDigit c = true)
          ∧ natural digits = .error e := by
  unfold lyricWord at h
  split at h
  · cases h
  · split at h
    · next digits dotted hu =>
      obtain ⟨-, hdigits, rfl⟩ := unitMark?_eq_some.1 hu
      rcases bind_eq_error.1 h with hn | ⟨n, -, hpure⟩
      · refine Or.inr ⟨digits, ⟨['['], (if dotted then ['.'] else []) ++ [']'], ?_⟩, hdigits, hn⟩
        simp [unitChars]
      · cases hpure
    · split at h
      · exact Or.inl ⟨_, (Except.error.inj h).symm⟩
      · rcases bind_eq_error.1 h with hb | ⟨b, -, hpure⟩
        · refine (beat_eq_error hb).imp_right fun hn => ?_
          exact ⟨w.takeWhile isDigit, (List.takeWhile_prefix isDigit).isInfix,
            forall_mem_takeWhile w, hn⟩
        · cases hpure

/-- A key signature starts with its letter. -/
theorem keySignature?_of_head? {w : List Char} (h : w.head? ≠ some 'K') :
    keySignature? w = none := by
  cases hk : keySignature? w with
  | none => rfl
  | some k =>
      obtain ⟨-, rfl⟩ := keySignature?_eq_some.1 hk
      refine absurd ?_ h
      simp [KeySignature.text]

/-- The text of a pitch does not look like a key signature. -/
theorem head?_text_ne_key {p : Pitch} (h : p.WellFormed) : p.text.toList.head? ≠ some 'K' := by
  obtain ⟨c, hc, hletter⟩ := letter_of_wellFormed h
  have hmem := mem_pitchLetters.1 hc
  simp only [List.mem_cons, List.not_mem_nil, or_false] at hmem
  have htext : p.text.toList = p.shifts.toList ++ (p.accidental.symbol.toList ++ [c]) := by
    simp [Pitch.text, hletter]
  rw [htext]
  intro hK
  cases hs : p.shifts.toList with
  | cons d ds =>
      rw [hs] at hK
      obtain rfl : d = 'K' := Option.some.inj hK
      rcases h.2 'K' (by rw [hs]; exact List.mem_cons_self) with h | h <;> cases h
  | nil =>
      rw [hs, List.nil_append] at hK
      cases ha : p.accidental <;> rw [ha] at hK
      case plain =>
        obtain rfl : c = 'K' := Option.some.inj hK
        rcases hmem with h | h | h | h | h | h | h <;> cases h
      all_goals
        exact absurd (Option.some.inj hK) (by decide)

/-- When a word of a pitch line is read, and as what. -/
theorem pitchWord_eq_ok {line : Option Int} {w : List Char} {items : List PitchItem} :
    pitchWord line w = .ok items
      ↔ (w = ['|'] ∧ items = [.barline])
        ∨ (∃ k, keySignature? w = some k ∧ items = [.key k])
        ∨ (w ≠ ['|'] ∧ w.head? ≠ some 'K' ∧ ∃ ps, pitches w = .ok ps
            ∧ items = ps.map .pitch) := by
  by_cases hbar : w = ['|']
  · subst hbar
    refine ⟨fun h => Or.inl ⟨rfl, (Except.ok.inj h).symm⟩, fun h => ?_⟩
    rcases h with ⟨-, rfl⟩ | ⟨k, hk, -⟩ | ⟨hne, -⟩
    · rfl
    · cases hk
    · exact absurd rfl hne
  · unfold pitchWord
    rw [if_neg hbar]
    cases hk : keySignature? w with
    | some k =>
        refine ⟨fun h => Or.inr (Or.inl ⟨k, rfl, (Except.ok.inj h).symm⟩), fun h => ?_⟩
        rcases h with ⟨hw, -⟩ | ⟨k', hsome, rfl⟩ | ⟨-, hhead, -⟩
        · exact absurd hw hbar
        · rw [Option.some.inj hsome]
        · rw [keySignature?_of_head? hhead] at hk
          cases hk
    | none =>
        show (if w.head? = some 'K' then Except.error _ else _) = .ok items ↔ _
        split
        · next hhead =>
          refine ⟨nofun, fun h => ?_⟩
          rcases h with ⟨hw, -⟩ | ⟨k, hsome, -⟩ | ⟨-, hne, -⟩
          · exact absurd hw hbar
          · cases hsome
          · exact absurd hhead hne
        · next hhead =>
          cases hp : pitches w with
          | error left =>
              refine ⟨nofun, fun h => ?_⟩
              rcases h with ⟨hw, -⟩ | ⟨k, hsome, -⟩ | ⟨-, -, ps, hps, -⟩
              · exact absurd hw hbar
              · cases hsome
              · cases hps
          | ok ps =>
              refine ⟨fun h => ?_, fun h => ?_⟩
              · exact Or.inr (Or.inr ⟨hbar, hhead, ps, rfl, (Except.ok.inj h).symm⟩)
              · rcases h with ⟨hw, -⟩ | ⟨k, hsome, -⟩ | ⟨-, -, qs, hqs, rfl⟩
                · exact absurd hw hbar
                · cases hsome
                · rw [Except.ok.inj hqs]

/-- A word of a pitch line is refused with the end of the word in the complaint. -/
theorem pitchWord_eq_error {line : Option Int} {w : List Char} {e : Error}
    (h : pitchWord line w = .error e) :
    ∃ fault left, left <:+ w ∧ e = .line fault line (String.ofList left) := by
  unfold pitchWord at h
  split at h
  · cases h
  · split at h
    · cases h
    · split at h
      · exact ⟨_, w, List.suffix_rfl, (Except.error.inj h).symm⟩
      · split at h
        · next left hleft =>
          exact ⟨_, left, suffix_of_pitches_eq_error hleft, (Except.error.inj h).symm⟩
        · cases h

end Reader

end LyricScore
