/-
The reader and the printer are inverse. Whatever the reader returns is well formed, and a
well-formed score is read back from its printed text; so the well-formed scores are exactly the
ones that some text writes.

# How a printed score is read back

From the inside out: a printed word is read as the item it prints, whatever its line number; a
printed line falls into its words; the printed lines fall into their chunks, because no line is
blank; and a chunk of one line can only be the title, because a block has at least two. Line
numbers matter to complaints alone, so the chunks are compared without them.
-/
import LyricScore.Proofs.Score.Chunks
import LyricScore.Proofs.Sequence

namespace LyricScore

open Text

namespace Reader

-- =========================================================== numbers

/-- A number that is short enough is read back from its digits. -/
theorem natural_of_fits {n : Int} (h : fits n = true) :
    natural (Nat.toDigits 10 n.toNat) = .ok n.toNat := by
  have hlt : n.natAbs < Nat.pow 10 maxDigits := by
    simpa only [fits, decide_eq_true_eq] using h
  exact natural_toDigits (Nat.lt_of_le_of_lt (by omega) hlt)

/-- What is read from digits is short enough to be printed. -/
theorem fits_of_natural {w : List Char} {n : Nat} (h : natural w = .ok n) :
    fits (n : Int) = true := by
  have hlt : (n : Int).natAbs < Nat.pow 10 maxDigits := lt_of_natural h
  simpa only [fits, decide_eq_true_eq] using hlt

theorem toDigits_ne_bar (n : Nat) (rest : List Char) : Nat.toDigits 10 n ++ rest ≠ ['|'] := by
  intro h
  cases hd : Nat.toDigits 10 n with
  | nil => exact Nat.toDigits_ne_nil hd
  | cons c ds =>
      have hc : isDigit c = true := isDigit_of_mem_toDigits (by rw [hd]; exact List.mem_cons_self)
      rw [hd] at h
      obtain ⟨rfl, -⟩ := List.cons.inj h
      cases hc

theorem head?_toDigits_ne_bracket (n : Nat) (rest : List Char) :
    (Nat.toDigits 10 n ++ rest).head? ≠ some '[' := by
  intro h
  cases hd : Nat.toDigits 10 n with
  | nil => exact Nat.toDigits_ne_nil hd
  | cons c ds =>
      have hc : isDigit c = true := isDigit_of_mem_toDigits (by rw [hd]; exact List.mem_cons_self)
      rw [hd] at h
      obtain rfl : c = '[' := Option.some.inj h
      cases hc

-- ====================================================== printed words

/-- A printed beat is read back. -/
theorem beat_printed (line : Option Int) {b : LyricBeat} (h : b.WellFormed) :
    beat line b.printed = .ok b := by
  obtain ⟨hne, hall, hpos, hfits⟩ := h
  obtain ⟨htake, hdrop⟩ := takeWhile_dropWhile_append (p := isDigit)
    (l := Nat.toDigits 10 b.duration.toNat)
    (r := '.' :: joinWith ['.'] (b.segments.map (·.text.toList)))
    (fun c hc => isDigit_of_mem_toDigits hc)
    (by intro c hc; obtain rfl := Option.some.inj hc; decide)
  have hsegments : segments ('.' :: joinWith ['.'] (b.segments.map (·.text.toList)))
      = b.segments := by
    have hjoin := segments_joinWith hall
    unfold segments at hjoin ⊢
    rw [pieces_point, hjoin]
  have hduration : duration (Nat.toDigits 10 b.duration.toNat) = .ok b.duration.toNat := by
    unfold duration
    rw [if_neg (by simp [Nat.toDigits_ne_nil]), natural_of_fits hfits]
  unfold LyricBeat.printed
  rw [toList_decimal_of_nonneg (by omega), beat_eq_ok, htake, hdrop, hsegments]
  exact ⟨hne, rfl, b.duration.toNat, hduration, by omega, by omega⟩

/-- A printed word of a lyric line is read back. -/
theorem lyricWord_printed (line : Option Int) {item : LyricItem} (h : item.WellFormed) :
    lyricWord line item.printed = .ok item := by
  rw [lyricWord_eq_ok]
  cases item with
  | barline => exact Or.inl ⟨rfl, rfl⟩
  | beat b =>
      have hword : (LyricItem.beat b).printed = Nat.toDigits 10 b.duration.toNat
          ++ '.' :: joinWith ['.'] (b.segments.map (·.text.toList)) := by
        have hpos := h.2.2.1
        show b.printed = _
        unfold LyricBeat.printed
        rw [toList_decimal_of_nonneg (by omega)]
      refine Or.inr (Or.inr ⟨?_, ?_, b, beat_printed line h, rfl⟩)
      · rw [hword]
        exact toDigits_ne_bar _ _
      · rw [hword]
        exact head?_toDigits_ne_bracket _ _
  | unit m =>
      obtain ⟨hpos, hfits⟩ := h
      have hword : m.text.toList = unitChars (Nat.toDigits 10 m.number.toNat) m.dotted := by
        simp only [UnitMark.text, String.toList_append, toList_decimal_of_nonneg hpos,
          unitChars]
        cases m.dotted <;> simp
      have hmark : unitMark? m.text.toList
          = some (Nat.toDigits 10 m.number.toNat, m.dotted) :=
        unitMark?_eq_some.2 ⟨Nat.toDigits_ne_nil, fun c hc => isDigit_of_mem_toDigits hc, hword⟩
      have hnumber : ((m.number.toNat : Nat) : Int) = m.number := by omega
      refine Or.inr (Or.inl ⟨_, _, _, hmark, natural_of_fits hfits, ?_⟩)
      rw [hnumber]

/-- A printed word of a pitch line is read back. -/
theorem pitchWord_printed (line : Option Int) {item : PitchItem} (h : item.WellFormed) :
    pitchWord line item.printed = .ok [item] := by
  rw [pitchWord_eq_ok]
  cases item with
  | barline => exact Or.inl ⟨rfl, rfl⟩
  | key k => exact Or.inr (Or.inl ⟨k, keySignature?_eq_some.2 ⟨h, rfl⟩, rfl⟩)
  | pitch p =>
      have hpitches : pitches p.text.toList = .ok [p] := by
        refine pitches_eq_ok.2 ⟨fun q hq => ?_, by simp⟩
        rw [List.mem_singleton.1 hq]
        exact h
      refine Or.inr (Or.inr ⟨fun hbar => ?_, head?_text_ne_key h, [p], hpitches, rfl⟩)
      have hnone : pitches ['|'] = .error ['|'] := by
        rw [pitches]
        rfl
      rw [show p.text.toList = ['|'] from hbar, hnone] at hpitches
      cases hpitches

-- ====================================================== printed lines

theorem symbol_isPlain (a : Accidental) :
    ∀ c ∈ a.symbol.toList, isBlank c = false ∧ '|' ≠ c := by
  cases a <;> exact forall_mem_of_all (by decide)

/-- The text of a key signature is a word. -/
theorem keyText_isPlainWord {k : KeySignature} (h : k.WellFormed) :
    IsPlainWord k.text.toList := by
  obtain ⟨sign, count⟩ := k
  have hall : ∀ c ∈ (KeySignature.mk sign count).text.toList, isBlank c = false ∧ '|' ≠ c := by
    rcases h with ⟨rfl, rfl⟩ | ⟨rfl | rfl, hlow, hhigh⟩
    · exact forall_mem_of_all (by decide)
    all_goals
      simp only at hlow hhigh
      have hn : count = 1 ∨ count = 2 ∨ count = 3 ∨ count = 4 ∨ count = 5 ∨ count = 6
          ∨ count = 7 := by omega
      rcases hn with rfl | rfl | rfl | rfl | rfl | rfl | rfl <;>
        exact forall_mem_of_all (by decide)
  refine ⟨⟨by simp [KeySignature.text], fun c hc => (hall c hc).1⟩, fun hbar => ?_⟩
  exact (hall '|' hbar).2 rfl

/-- The printed words of a lyric line are words. -/
theorem printed_lyric_isWord {item : LyricItem} (h : item.WellFormed) :
    item.printed = ['|'] ∨ IsPlainWord item.printed := by
  have hdigit : ∀ {c : Char}, isDigit c = true → isBlank c = false ∧ '|' ≠ c := by
    intro c hc
    refine ⟨?_, fun hbar => by rw [← hbar] at hc; cases hc⟩
    cases hblank : isBlank c with
    | false => rfl
    | true => rw [isDigit_of_isBlank hblank] at hc; cases hc
  have hplain : ∀ {w : List Char}, w ≠ [] → (∀ c ∈ w, isBlank c = false ∧ '|' ≠ c) →
      IsPlainWord w := fun hne hall =>
    ⟨⟨hne, fun c hc => (hall c hc).1⟩, fun hbar => (hall '|' hbar).2 rfl⟩
  cases item with
  | barline => exact Or.inl rfl
  | beat b =>
      obtain ⟨-, hall, hpos, -⟩ := h
      refine Or.inr (hplain (by simp [LyricItem.printed, LyricBeat.printed]) fun c hc => ?_)
      simp only [LyricItem.printed, LyricBeat.printed, List.mem_append, List.mem_cons] at hc
      rcases hc with hc | rfl | hc
      · rw [toList_decimal_of_nonneg (by omega)] at hc
        exact hdigit (isDigit_of_mem_toDigits hc)
      · decide
      · rcases mem_joinWith hc with hc | ⟨w, hw, hcw⟩
        · obtain rfl := List.mem_singleton.1 hc
          decide
        · obtain ⟨s, hs, rfl⟩ := List.mem_map.1 hw
          cases s with
          | marker m =>
              obtain rfl : c = m.char := by simpa [Segment.text, Marker.text] using hcw
              cases m <;> decide
          | syllable text =>
              obtain ⟨hblank, hmark⟩ := (hall _ hs).2 c hcw
              exact ⟨hblank, fun hbar => hmark (by rw [← hbar]; decide)⟩
  | unit m =>
      refine Or.inr (hplain (by simp [LyricItem.printed, UnitMark.text]) fun c hc => ?_)
      simp only [LyricItem.printed, UnitMark.text, String.toList_append, List.mem_append,
        toList_decimal_of_nonneg h.1] at hc
      rcases hc with ((hc | hc) | hc) | hc
      · obtain rfl : c = '[' := by simpa using hc
        decide
      · exact hdigit (isDigit_of_mem_toDigits hc)
      · obtain ⟨-, rfl⟩ : m.dotted = true ∧ c = '.' := by
          cases hd : m.dotted <;> simp [hd] at hc ⊢
          exact hc
        decide
      · obtain rfl : c = ']' := by simpa using hc
        decide

/-- The printed words of a pitch line are words. -/
theorem printed_pitch_isWord {item : PitchItem} (h : item.WellFormed) :
    item.printed = ['|'] ∨ IsPlainWord item.printed := by
  cases item with
  | barline => exact Or.inl rfl
  | key k => exact Or.inr (keyText_isPlainWord h)
  | pitch p =>
      obtain ⟨c, hc, hletter⟩ := letter_of_wellFormed h
      have hmem := mem_pitchLetters.1 hc
      simp only [List.mem_cons, List.not_mem_nil, or_false] at hmem
      have htext : (PitchItem.pitch p).printed
          = p.shifts.toList ++ (p.accidental.symbol.toList ++ [c]) := by
        simp [PitchItem.printed, Pitch.text, hletter]
      have hall : ∀ d ∈ (PitchItem.pitch p).printed, isBlank d = false ∧ '|' ≠ d := by
        intro d hd
        rw [htext, List.mem_append, List.mem_append, List.mem_singleton] at hd
        rcases hd with hd | hd | rfl
        · rcases h.2 d hd with rfl | rfl <;> decide
        · exact symbol_isPlain p.accidental d hd
        · rcases hmem with rfl | rfl | rfl | rfl | rfl | rfl | rfl <;> decide
      refine Or.inr ⟨⟨?_, fun d hd => (hall d hd).1⟩, fun hbar => (hall '|' hbar).2 rfl⟩
      rw [htext]
      simp

/-- A printed counter makes a line. -/
theorem isLine_printedCounter {n : Int} (h : 0 ≤ n) : IsLine (printedCounter n) := by
  have hword : "counter: ".toList = "counter:".toList ++ [' '] := rfl
  have hjoin : printedCounter n = joinWith [' '] ["counter:".toList, (decimal n).toList] := by
    unfold printedCounter
    rw [hword, joinWith_cons_cons, joinWith_singleton, List.append_assoc]
  rw [hjoin]
  refine isLine_joinWith (by simp) fun w hw => Or.inr ?_
  rcases List.mem_cons.1 hw with rfl | hw
  · exact ⟨⟨by decide, forall_mem_of_all (by decide)⟩, by decide⟩
  · obtain rfl := List.mem_singleton.1 hw
    rw [toList_decimal_of_nonneg h]
    refine ⟨⟨Nat.toDigits_ne_nil, fun c hc => ?_⟩, fun hbar => ?_⟩
    · cases hblank : isBlank c with
      | false => rfl
      | true =>
          have hdigit := isDigit_of_mem_toDigits hc
          rw [isDigit_of_isBlank hblank] at hdigit
          cases hdigit
    · cases isDigit_of_mem_toDigits hbar

theorem words_ne_nil {l : PitchLine} (h : l.WellFormed) : l.words ≠ [] := by
  obtain ⟨-, hopening⟩ := h
  unfold PitchLine.words
  cases ho : l.opening with
  | some o => simp
  | none =>
      rw [ho] at hopening
      obtain ⟨item, hitem, -⟩ := hopening
      cases hi : l.items with
      | nil => rw [hi] at hitem; cases hitem
      | cons item items => simp

theorem words_isWord {l : PitchLine} (h : l.WellFormed) :
    ∀ w ∈ l.words, w = ['|'] ∨ IsPlainWord w := by
  obtain ⟨hitems, hopening⟩ := h
  intro w hw
  rcases List.mem_append.1 hw with hw | hw
  · cases ho : l.opening with
    | none => rw [ho] at hw; cases hw
    | some o =>
        rw [ho] at hw hopening
        cases o with
        | word text => exact hopening.elim
        | key k =>
            obtain rfl : w = k.text.toList := List.mem_singleton.1 hw
            exact Or.inr (keyText_isPlainWord hopening)
  · obtain ⟨item, hitem, rfl⟩ := List.mem_map.1 hw
    exact printed_pitch_isWord (hitems item hitem)

/-- The lines of a well-formed block stay as they are. -/
theorem isLine_of_mem_printed {b : Block} (h : b.WellFormed) : ∀ l ∈ b.printed, IsLine l := by
  obtain ⟨hne, hlyrics, hpitches, hcounter⟩ := h
  intro l hl
  rcases List.mem_cons.1 hl with rfl | hl
  · refine isLine_joinWith (by simpa using hne) fun w hw => ?_
    obtain ⟨item, hitem, rfl⟩ := List.mem_map.1 hw
    exact printed_lyric_isWord (hlyrics item hitem)
  · rcases List.mem_cons.1 hl with rfl | hl
    · exact isLine_joinWith (words_ne_nil hpitches) (words_isWord hpitches)
    · obtain ⟨n, hn, rfl⟩ : ∃ n ∈ b.counter, printedCounter n = l := by
        simpa [Option.mem_toList] using hl
      exact isLine_printedCounter (hcounter n hn).1

-- ==================================================== blocks and scores

theorem lyricLine_printed (line : Option Int) {items : List LyricItem}
    (h : ∀ item ∈ items, item.WellFormed) :
    lyricLine line (joinWith [' '] (items.map LyricItem.printed)) = .ok items := by
  have hwords : lineWords (joinWith [' '] (items.map LyricItem.printed))
      = items.map LyricItem.printed := by
    refine lineWords_joinWith fun w hw => ?_
    obtain ⟨item, hitem, rfl⟩ := List.mem_map.1 hw
    exact printed_lyric_isWord (h item hitem)
  unfold lyricLine
  rw [hwords, mapM_eq_ok, List.map_map]
  exact List.map_congr_left fun item hitem => lyricWord_printed line (h item hitem)

theorem pitchItems_printed (line : Option Int) {items : List PitchItem}
    (h : ∀ item ∈ items, item.WellFormed) :
    pitchItems line (items.map PitchItem.printed) = .ok items := by
  have hread : (items.map PitchItem.printed).mapM (pitchWord line)
      = .ok (items.map fun item => [item]) := by
    rw [mapM_eq_ok, List.map_map, List.map_map]
    exact List.map_congr_left fun item hitem => pitchWord_printed line (h item hitem)
  unfold pitchItems
  rw [hread]
  show Except.ok (items.map fun item => [item]).flatten = _
  rw [← List.flatMap_def, List.flatMap_singleton']

theorem pitchLine_printed (line : Option Int) {l : PitchLine} (h : l.WellFormed) :
    pitchLine line (joinWith [' '] l.words) = .ok l := by
  have hwords := lineWords_joinWith (words_isWord h)
  obtain ⟨opening, items⟩ := l
  obtain ⟨hitems, hopening⟩ := h
  have hread := pitchItems_printed line hitems
  generalize joinWith [' '] (PitchLine.words ⟨opening, items⟩) = printed at hwords ⊢
  cases opening with
  | some o =>
      cases o with
      | word text => exact hopening.elim
      | key k =>
          have hkey : keySignature? k.text.toList = some k :=
            keySignature?_eq_some.2 ⟨hopening, rfl⟩
          have hline : lineWords printed = k.text.toList :: items.map PitchItem.printed := hwords
          simp only [pitchLine, hline, hkey, hread]
          rfl
  | none =>
      obtain ⟨item, hitem, hnotKey⟩ := hopening
      cases items with
      | nil => cases hitem
      | cons first rest =>
          obtain rfl : first = item := Option.some.inj hitem
          have hnone : keySignature? first.printed = none := by
            cases first with
            | barline => rfl
            | key k => cases hnotKey
            | pitch p =>
                exact keySignature?_of_head? (head?_text_ne_key (hitems _ List.mem_cons_self))
          have hline : lineWords printed = first.printed :: rest.map PitchItem.printed := hwords
          simp only [pitchLine, hline, hnone]
          show (pitchItems line ((first :: rest).map PitchItem.printed) >>= _) = _
          rw [hread]
          rfl

theorem counter_printed (line : Option Int) {n : Int} (hpos : 0 ≤ n) (hfits : fits n = true) :
    counter line (printedCounter n) = .ok n.toNat := by
  have hdigits : counterDigits? (printedCounter n) = some (Nat.toDigits 10 n.toNat) := by
    refine counterDigits?_eq_some.2 ⟨"counter:".toList, [' '], ?_, by decide,
      forall_mem_of_all (by decide), Nat.toDigits_ne_nil, fun c hc => isDigit_of_mem_toDigits hc⟩
    unfold printedCounter
    rw [toList_decimal_of_nonneg hpos]
    rfl
  unfold counter
  rw [hdigits]
  exact natural_of_fits hfits

/-- A chunk that holds the lines of a block is read as the block, whatever their numbers. -/
theorem block_printed {b : Block} (h : b.WellFormed) {chunk : List NumberedLine}
    (hchunk : chunk.map (·.2) = b.printed) : block chunk = .ok b := by
  obtain ⟨lyrics, pitches, number⟩ := b
  obtain ⟨-, hlyrics, hpitches, hcounter⟩ := h
  obtain ⟨⟨n, lyric⟩, _, rfl, rfl, hrest⟩ := List.map_eq_cons_iff.1 hchunk
  obtain ⟨⟨m, pitch⟩, _, rfl, rfl, hlast⟩ := List.map_eq_cons_iff.1 hrest
  cases number with
  | none =>
      obtain rfl := List.map_eq_nil_iff.1 hlast
      show blockOf _ _ none = _
      unfold blockOf
      rw [lyricLine_printed _ hlyrics, pitchLine_printed _ hpitches]
      rfl
  | some k =>
      obtain ⟨⟨i, last⟩, _, rfl, rfl, hnil⟩ := List.map_eq_cons_iff.1 hlast
      obtain rfl := List.map_eq_nil_iff.1 hnil
      obtain ⟨hpos, hfits⟩ := hcounter k rfl
      show blockOf _ _ (some (i, printedCounter k)) = _
      unfold blockOf
      rw [lyricLine_printed _ hlyrics, pitchLine_printed _ hpitches]
      show (counter (some i) (printedCounter k) >>= fun n => _) = _
      rw [counter_printed _ hpos hfits]
      show Except.ok (Block.mk lyrics pitches (some (k.toNat : Int))) = _
      rw [Int.toNat_of_nonneg hpos]

/-- Chunks that hold the lines of blocks are read as the blocks. -/
theorem blocks_printed {bs : List Block} (h : ∀ b ∈ bs, b.WellFormed)
    {cs : List (List NumberedLine)} (hcs : cs.map (List.map (·.2)) = bs.map Block.printed) :
    cs.mapM block = .ok bs := by
  rw [mapM_eq_ok]
  induction cs generalizing bs with
  | nil =>
      cases bs with
      | nil => rfl
      | cons b bs => cases hcs
  | cons c cs ih =>
      cases bs with
      | nil => cases hcs
      | cons b bs =>
          obtain ⟨hc, hrest⟩ := List.cons.inj hcs
          rw [List.map_cons, List.map_cons, block_printed (h b List.mem_cons_self) hc,
            ih (fun b hb => h b (List.mem_cons_of_mem _ hb)) hrest]

/-- Chunks that hold the lines of a score are read as the score. -/
theorem scoreOf_printed {s : Score} (h : s.WellFormed) {cs : List (List NumberedLine)}
    (hcs : cs.map (List.map (·.2)) = s.chunks) : scoreOf cs = .ok s := by
  obtain ⟨htitle, hblocks⟩ := h
  obtain ⟨blocks, title⟩ := s
  unfold Score.chunks at hcs
  by_cases hempty : title = ""
  · subst hempty
    rw [if_pos rfl, List.nil_append] at hcs
    have hread := blocks_printed hblocks hcs
    -- a printed block has two lines at least, so no chunk is taken for a title
    have hnoTitle : ∀ line rest, cs ≠ [line] :: rest := by
      rintro line rest rfl
      obtain ⟨b, _, -, hb, -⟩ := List.map_eq_cons_iff.1 hcs.symm
      have hlength := congrArg List.length hb
      simp [Block.printed] at hlength
    rw [scoreOf.eq_2 cs hnoTitle, hread]
    rfl
  · rw [if_neg hempty] at hcs
    obtain ⟨chunk, rest, rfl, hchunk, hrest⟩ := List.map_eq_cons_iff.1 hcs
    obtain ⟨⟨n, line⟩, _, rfl, rfl, hnil⟩ := List.map_eq_cons_iff.1 hchunk
    obtain rfl := List.map_eq_nil_iff.1 hnil
    show (rest.mapM block >>= fun blocks => _) = _
    rw [blocks_printed hblocks hrest]
    show Except.ok (Score.mk blocks (String.ofList title.toList)) = _
    rw [String.ofList_toList]

/-- A printed score is read back. -/
theorem parse_print {s : Score} (h : s.WellFormed) : Score.parse s.print = .ok s := by
  have hchunks : ∀ c ∈ s.chunks, c ≠ [] ∧ ∀ l ∈ c, IsLine l := by
    intro c hc
    unfold Score.chunks at hc
    rcases List.mem_append.1 hc with hc | hc
    · split at hc
      · cases hc
      · next htitle =>
        obtain rfl := List.mem_singleton.1 hc
        obtain ⟨hne, htrim, hends⟩ := h.1.resolve_left htitle
        refine ⟨by simp, fun l hl => ?_⟩
        obtain rfl := List.mem_singleton.1 hl
        exact ⟨fun hnil => hne (String.toList_eq_nil_iff.1 hnil), hends, htrim⟩
    · obtain ⟨b, hb, rfl⟩ := List.mem_map.1 hc
      exact ⟨by simp [Block.printed], isLine_of_mem_printed (h.2 b hb)⟩
  unfold Score.parse Score.print
  rw [String.toList_ofList]
  exact scoreOf_printed h (map_chunks_joinWith hchunks)

-- ================================================ what the reader returns

theorem fits_of_duration {digits : List Char} {n : Nat} (h : duration digits = .ok n) :
    fits (n : Int) = true := by
  unfold duration at h
  split at h
  · obtain rfl := Except.ok.inj h
    exact fits_of_natural (w := ['1']) rfl
  · exact fits_of_natural h

theorem wellFormed_of_lyricLine {line : Option Int} {text : List Char} {items : List LyricItem}
    (h : lyricLine line text = .ok items) : ∀ item ∈ items, item.WellFormed := by
  intro item hitem
  obtain ⟨w, hw, hread⟩ := exists_of_mapM_eq_ok h hitem
  rcases lyricWord_eq_ok.1 hread with ⟨-, rfl⟩ | ⟨digits, dotted, n, -, hn, rfl⟩
    | ⟨hbar, -, b, hb, rfl⟩
  · trivial
  · exact ⟨Int.natCast_nonneg n, fits_of_natural hn⟩
  · obtain ⟨hne, hsegments, n, hn, hpos, hduration⟩ := beat_eq_ok.1 hb
    obtain ⟨⟨-, hblank⟩, hnoBar⟩ := ((mem_lineWords hw).resolve_left hbar).1
    have hchars : ∀ c ∈ w.dropWhile isDigit, isBlank c = false ∧ c ≠ '|' := by
      intro c hc
      have hmem : c ∈ w := (List.dropWhile_suffix isDigit).subset hc
      exact ⟨hblank c hmem, fun heq => hnoBar (heq ▸ hmem)⟩
    refine ⟨hsegments ▸ hne, hsegments ▸ wellFormed_of_mem_segments hchars, ?_, ?_⟩
    · rw [hduration]
      exact Int.ofNat_le.2 hpos
    · rw [hduration]
      exact fits_of_duration hn

theorem wellFormed_of_pitchItems {line : Option Int} {ws : List (List Char)}
    {items : List PitchItem} (h : pitchItems line ws = .ok items) :
    ∀ item ∈ items, item.WellFormed := by
  obtain ⟨parts, hparts, hflat⟩ := bind_eq_ok.1 h
  obtain rfl := Except.ok.inj hflat
  intro item hitem
  obtain ⟨part, hpart, hmem⟩ := List.mem_flatten.1 hitem
  obtain ⟨w, -, hread⟩ := exists_of_mapM_eq_ok hparts hpart
  rcases pitchWord_eq_ok.1 hread with ⟨-, rfl⟩ | ⟨k, hk, rfl⟩ | ⟨-, -, ps, hps, rfl⟩
  · obtain rfl := List.mem_singleton.1 hmem
    trivial
  · obtain rfl := List.mem_singleton.1 hmem
    exact (keySignature?_eq_some.1 hk).1
  · obtain ⟨p, hp, rfl⟩ := List.mem_map.1 hmem
    exact (pitches_eq_ok.1 hps).1 p hp

/-- A word that is no key signature starts with an item that is none. -/
theorem head?_of_pitchWord {line : Option Int} {w : List Char} {items : List PitchItem}
    (hw : w ≠ []) (hnone : keySignature? w = none) (h : pitchWord line w = .ok items) :
    ∃ item ∈ items.head?, item.isKey = false := by
  rcases pitchWord_eq_ok.1 h with ⟨-, rfl⟩ | ⟨k, hk, -⟩ | ⟨-, -, ps, hps, rfl⟩
  · exact ⟨.barline, rfl, rfl⟩
  · rw [hk] at hnone
    cases hnone
  · cases ps with
    | nil => exact absurd (pitches_eq_ok.1 hps).2 hw
    | cons p ps => exact ⟨.pitch p, rfl, rfl⟩

theorem wellFormed_of_pitchLine {line : Option Int} {text : List Char} {l : PitchLine}
    (hwords : lineWords text ≠ []) (h : pitchLine line text = .ok l) : l.WellFormed := by
  unfold pitchLine at h
  split at h
  · next hnil => exact absurd hnil hwords
  · next first rest hcons =>
    split at h
    · next key hkey =>
      obtain ⟨items, hitems, hl⟩ := bind_eq_ok.1 h
      obtain rfl := Except.ok.inj hl
      exact ⟨wellFormed_of_pitchItems hitems, (keySignature?_eq_some.1 hkey).1⟩
    · next hnone =>
      obtain ⟨items, hitems, hl⟩ := bind_eq_ok.1 h
      obtain rfl := Except.ok.inj hl
      refine ⟨wellFormed_of_pitchItems hitems, ?_⟩
      obtain ⟨parts, hparts, hflat⟩ := bind_eq_ok.1 hitems
      obtain rfl := Except.ok.inj hflat
      have hfirst : first ≠ [] :=
        (isWord_of_mem_words (hcons ▸ List.mem_cons_self : first ∈ lineWords text)).1
      cases parts with
      | nil => cases mapM_eq_ok.1 hparts
      | cons part parts =>
          have hread : pitchWord line first = .ok part := (List.cons.inj (mapM_eq_ok.1 hparts)).1
          obtain ⟨item, hitem, hkey⟩ := head?_of_pitchWord hfirst hnone hread
          refine ⟨item, ?_, hkey⟩
          rw [List.flatten_cons, List.head?_append, show part.head? = some item from hitem]
          rfl

theorem wellFormed_of_counter {line : Option Int} {text : List Char} {n : Nat}
    (h : counter line text = .ok n) : 0 ≤ (n : Int) ∧ fits (n : Int) = true := by
  unfold counter at h
  split at h
  · cases h
  · exact ⟨Int.natCast_nonneg n, fits_of_natural h⟩

theorem wellFormed_of_blockOf {lyric pitch : NumberedLine} {c : Option NumberedLine} {b : Block}
    (hlyric : IsLine lyric.2) (hpitch : IsLine pitch.2) (h : blockOf lyric pitch c = .ok b) :
    b.WellFormed := by
  obtain ⟨lyrics, hlyrics, h⟩ := bind_eq_ok.1 h
  obtain ⟨pitches, hpitches, h⟩ := bind_eq_ok.1 h
  have hne := ne_nil_of_mapM_eq_ok hlyrics (lineWords_ne_nil_of_isLine hlyric)
  have hitems := wellFormed_of_lyricLine hlyrics
  have hline := wellFormed_of_pitchLine (lineWords_ne_nil_of_isLine hpitch) hpitches
  cases c with
  | none =>
      obtain rfl := Except.ok.inj h
      exact ⟨hne, hitems, hline, nofun⟩
  | some c =>
      obtain ⟨n, hn, h⟩ := bind_eq_ok.1 h
      obtain rfl := Except.ok.inj h
      refine ⟨hne, hitems, hline, fun m hm => ?_⟩
      obtain rfl := Option.some.inj hm
      exact wellFormed_of_counter hn

theorem wellFormed_of_block {chunk : List NumberedLine} {b : Block} (hne : chunk ≠ [])
    (hlines : ∀ l ∈ chunk, IsLine l.2) (h : block chunk = .ok b) : b.WellFormed := by
  unfold block at h
  split at h
  · exact absurd rfl hne
  · cases h
  · exact wellFormed_of_blockOf (hlines _ (by simp)) (hlines _ (by simp)) h
  · exact wellFormed_of_blockOf (hlines _ (by simp)) (hlines _ (by simp)) h
  · cases h

/-- What the reader returns is well formed. -/
theorem wellFormed_of_parse {text : String} {s : Score} (h : Score.parse text = .ok s) :
    s.WellFormed := by
  have hblocks : ∀ cs : List (List NumberedLine), (∀ c ∈ cs, c ∈ chunks text.toList) →
      ∀ bs, cs.mapM block = .ok bs → ∀ b ∈ bs, b.WellFormed := by
    intro cs hcs bs hbs b hb
    obtain ⟨c, hc, hread⟩ := exists_of_mapM_eq_ok hbs hb
    exact wellFormed_of_block (mem_chunks (hcs c hc)).1 (isLine_of_mem_chunks (hcs c hc)) hread
  unfold Score.parse at h
  unfold scoreOf at h
  split at h
  · next title rest hchunks =>
    obtain ⟨bs, hbs, hs⟩ := bind_eq_ok.1 h
    obtain rfl := Except.ok.inj hs
    have hline := isLine_of_mem_chunks (hchunks ▸ List.mem_cons_self) title (by simp)
    refine ⟨Or.inr ⟨?_, ?_, ?_⟩, hblocks rest (fun c hc => ?_) bs hbs⟩
    · simpa using hline.1
    · simpa using hline.2.2
    · simpa using hline.2.1
    · rw [hchunks]
      exact List.mem_cons_of_mem _ hc
  · obtain ⟨bs, hbs, hs⟩ := bind_eq_ok.1 h
    obtain rfl := Except.ok.inj hs
    exact ⟨Or.inl rfl, hblocks _ (fun c hc => hc) bs hbs⟩

end Reader

/-- The reader and the printer are inverse: what is read is well formed, and what is well formed
is read back from its printed text. -/
theorem Score.parse_inverts_print :
    (∀ (text : String) (s : Score), Score.parse text = .ok s → s.WellFormed)
      ∧ ∀ s : Score, s.WellFormed → Score.parse s.print = .ok s :=
  ⟨fun _ _ => Reader.wellFormed_of_parse, fun _ => Reader.parse_print⟩

/-- The round trip of a beat whose first syllable looks like a number and whose second looks like
a unit mark, under a title, with a key, packed pitches and a counter. -/
theorem Score.parse_inverts_print_digits :
    let s : Score :=
      ⟨[⟨[.unit ⟨4, true⟩, .beat ⟨[.syllable "2x", .marker .hold, .syllable "[8]"], 3⟩, .barline],
        ⟨some (.key ⟨"&", 3⟩), [.pitch ⟨"e", .natural, "^/"⟩, .barline]⟩, some 0⟩], "4 airs"⟩
    s.WellFormed ∧ Score.parse s.print = .ok s
      ∧ s.print = "4 airs\n\n[4.] 3.2x.=.[8] |\nK&3 ^/%e |\ncounter: 0" := by
  intro s
  have hfits : ∀ n ∈ [(0 : Nat), 3, 4], fits (n : Int) = true := by
    simp only [List.forall_mem_cons]
    exact ⟨Reader.fits_of_natural (w := ['0']) rfl, Reader.fits_of_natural (w := ['3']) rfl,
      Reader.fits_of_natural (w := ['4']) rfl, nofun⟩
  have hbeat : LyricBeat.WellFormed
      ⟨[.syllable "2x", .marker .hold, .syllable "[8]"], 3⟩ := by
    refine ⟨nofun, ?_, by decide, hfits 3 (by decide)⟩
    simp only [List.forall_mem_cons]
    exact ⟨⟨by decide, forall_mem_of_all (by decide)⟩, trivial,
      ⟨by decide, forall_mem_of_all (by decide)⟩, nofun⟩
  have hs : s.WellFormed := by
    refine ⟨Or.inr ⟨by decide, by decide, forall_mem_of_all (by decide)⟩, ?_⟩
    simp only [s, List.forall_mem_cons]
    refine ⟨⟨nofun, ?_, ⟨?_, Or.inr ⟨by decide, by decide, by decide⟩⟩, ?_⟩, nofun⟩
    · simp only [List.forall_mem_cons]
      exact ⟨⟨by decide, hfits 4 (by decide)⟩, hbeat, trivial, nofun⟩
    · simp only [List.forall_mem_cons]
      exact ⟨⟨by decide, forall_mem_of_all (by decide)⟩, trivial, nofun⟩
    · rintro n ⟨⟩
      exact ⟨by decide, hfits 0 (by decide)⟩
  exact ⟨hs, Score.parse_inverts_print.2 s hs, by decide⟩

end LyricScore
