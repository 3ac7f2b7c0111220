/-
The music of a finished table. The rows of a block are put one behind the other with spaces between
them, so what a block writes is spelled with the tokens of its rows; then the line is tidied, and
ties that open a line are carried to the line before.

Rows stand in the order of their blocks. So the lines, read one after the other, say what the rows
say, and whoever reads them meets no tie that goes amiss if that is so for the rows.
-/
import LyricScore.Proofs.Table.Classes
import LyricScore.Proofs.Tune.Carry
import LyricScore.Proofs.Tune.Reading
import LyricScore.Tune.Assembly
import Mathlib.Data.List.Basic
import Mathlib.Tactic.Choose

namespace LyricScore

open Text Lexer

-- ============================================================= blocks

variable {α : Type}

/-- Elements in the order of their keys, collected key by key. -/
theorem flatMap_distinct_of_le {f : α → Int} {l : List α} (h : l.Pairwise fun a b => f a ≤ f b) :
    (distinct (l.map f)).flatMap (fun k => l.filter fun a => decide (f a = k)) = l := by
  induction l with
  | nil => rfl
  | cons a l ih =>
      obtain ⟨hfirst, hrest⟩ := List.pairwise_cons.1 h
      have hmore : ∀ ks : List Int, f a ∉ ks →
          ks.flatMap (fun k => (a :: l).filter fun b => decide (f b = k))
            = ks.flatMap fun k => l.filter fun b => decide (f b = k) := by
        intro ks hks
        refine List.flatMap_congr fun k hk => List.filter_cons_of_neg ?_
        rw [decide_eq_true_eq]
        rintro rfl
        exact hks hk
      rw [List.map_cons, distinct, List.flatMap_cons, List.filter_cons_of_pos (by simp),
        List.cons_append, hmore _ (by simp)]
      congr 1
      cases l with
      | nil => rfl
      | cons b l =>
          have hdistinct := ih hrest
          rw [List.map_cons, distinct] at hdistinct ⊢
          by_cases hb : f b = f a
          · rw [hb, List.flatMap_cons] at hdistinct
            rwa [hb, List.filter_cons_of_neg (p := fun k => decide (k ≠ f a)) (by simp),
              List.filter_filter, List.filter_congr fun k _ => Bool.and_self _]
          · have hnone : (b :: l).filter (fun c => decide (f c = f a)) = [] := by
              refine List.filter_eq_nil_iff.2 fun c hc => ?_
              have hle : f b ≤ f c := by
                rcases List.mem_cons.1 hc with rfl | hc
                · exact Int.le_refl _
                · exact (List.pairwise_cons.1 hrest).1 c hc
              have hba := hfirst b List.mem_cons_self
              simp only [decide_eq_true_eq]
              omega
            have hnot : f a ∉ (b :: l).map f := by
              intro hmem
              obtain ⟨c, hc, hca⟩ := List.mem_map.1 hmem
              have hkept := List.filter_eq_nil_iff.1 hnone c hc
              simp [hca] at hkept
            rw [hnone, List.nil_append, ← distinct, ← List.map_cons, filter_ne_distinct hnot,
              List.map_cons, distinct, hdistinct]

-- ============================================================= pieces

/-- Texts with a space between any two of them. -/
theorem Reads.joinWith {texts : List String} (h : ∀ text ∈ texts, Reads text (lexed text)) :
    Reads (String.ofList (Text.joinWith [' '] (texts.map String.toList))) (texts.flatMap lexed) := by
  induction texts with
  | nil => exact Reads.empty
  | cons text texts ih =>
      obtain ⟨htext, htexts⟩ := List.forall_mem_cons.1 h
      cases texts with
      | nil => simpa using htext
      | cons text' texts =>
          have hbeside := htext.beside (ih htexts)
          have hjoin : text ++ " "
                ++ String.ofList (Text.joinWith [' '] ((text' :: texts).map String.toList))
              = String.ofList (Text.joinWith [' '] ((text :: text' :: texts).map String.toList)) := by
            apply String.toList_inj.1
            simp only [String.toList_append, String.toList_ofList, List.map_cons, joinWith_cons_cons,
              List.append_assoc]
            rfl
          rwa [hjoin] at hbeside

/-- The tokens that a row puts into the music. -/
def Row.tokens (r : Row) : List Token :=
  lexed r.directive ++ lexed r.text

/-- A row whose announcement and text can be read. -/
structure Row.Legible (r : Row) : Prop where
  directive : Reads r.directive (lexed r.directive)
  text : Reads r.text (lexed r.text)
  plain : ∀ t ∈ r.tokens, t.Plain
  whole : Tying.Whole r.tokens

theorem Row.flatMap_musicPieces (r : Row) : (Table.musicPieces r).flatMap lexed = r.tokens := by
  have hempty : lexed "" = [] := Reads.empty.lexed_eq
  unfold Table.musicPieces
  rw [flatMap_filter_of_nil]
  · simp [Row.tokens]
  · intro text _ htext
    obtain rfl : text = "" := by simpa using htext
    exact hempty

namespace Table

/-- The lyric rows. -/
def lyrics (t : Table) : List Row :=
  t.filter fun r => decide (r.source = .lyric)

theorem filter_lyric_block (t : Table) (block : Int) :
    t.filter (fun r => decide (r.source = .lyric ∧ r.block = block))
      = t.lyrics.filter fun r => decide (r.block = block) := by
  unfold lyrics
  rw [List.filter_filter]
  exact List.filter_congr fun r _ => by simp [and_comm]

/-- A finished table whose music can be read. -/
structure Playable (t : Table) : Prop where
  rows : ∀ r ∈ t.lyrics, r.Legible
  ordered : t.lyrics.Pairwise fun a b => a.block ≤ b.block
  settled : ∃ s : Tying, s.Settled ∧ Tying.silent.after (t.lyrics.flatMap Row.tokens) = some s

/-- What a block writes. -/
theorem Playable.exists_blockMusic {t : Table} (h : t.Playable) (block : Int) :
    ∃ gs, t.blockMusic block = spell gs ∧ Spaced gs ∧ (∀ g ∈ gs, g.Plain)
      ∧ tokensOf gs = (t.lyrics.filter fun r => decide (r.block = block)).flatMap Row.tokens := by
  have hmem : ∀ r ∈ t.lyrics.filter fun r => decide (r.block = block), r.Legible := fun r hr =>
    h.rows r (List.mem_filter.1 hr).1
  unfold blockMusic
  rw [filter_lyric_block]
  generalize t.lyrics.filter (fun r => decide (r.block = block)) = rows at hmem
  have hpieces : ∀ text ∈ rows.flatMap musicPieces, Reads text (lexed text) := by
    intro text htext
    obtain ⟨r, hr, htext⟩ := List.mem_flatMap.1 htext
    rcases List.mem_cons.1 (List.mem_filter.1 htext).1 with rfl | htext
    · exact (hmem r hr).directive
    · obtain rfl := List.mem_singleton.1 htext
      exact (hmem r hr).text
  obtain ⟨-, gs, htext, htokens, hspaced⟩ := Reads.joinWith hpieces
  rw [List.flatMap_assoc, List.flatMap_congr fun r _ => r.flatMap_musicPieces] at htokens
  refine ⟨gs, ?_, hspaced, ?_, htokens⟩
  · rw [← htext, String.toList_ofList]
  · rw [plain_iff, htokens]
    intro t ht
    obtain ⟨r, hr, ht⟩ := List.mem_flatMap.1 ht
    exact (hmem r hr).plain t ht

end Table

-- ============================================================== lines

namespace Tying

variable {s s' : Tying} {l : List α} {f g : α → List Token}

theorem exists_after_of_mem (h : s.after (l.flatMap f) = some s') :
    ∀ a ∈ l, ∃ u u' : Tying, u.after (f a) = some u' := by
  induction l generalizing s with
  | nil => exact fun a ha => absurd ha List.not_mem_nil
  | cons a l ih =>
      rw [List.flatMap_cons, after_append] at h
      obtain ⟨u, ha, hl⟩ := Option.bind_eq_some_iff.1 h
      exact List.forall_mem_cons.2 ⟨⟨s, u, ha⟩, ih hl⟩

theorem after_flatMap_congr (h : ∀ a ∈ l, ∀ s : Tying, s.after (f a) = s.after (g a)) (s : Tying) :
    s.after (l.flatMap f) = s.after (l.flatMap g) := by
  induction l generalizing s with
  | nil => rfl
  | cons a l ih =>
      obtain ⟨ha, hl⟩ := List.forall_mem_cons.1 h
      rw [List.flatMap_cons, List.flatMap_cons, after_append, after_append, ha s]
      exact congrArg _ (funext fun u => ih hl u)

end Tying

/-- Lines without a character are those without a glyph. -/
theorem filter_spell {lines : List (List Glyph)} (h : ∀ line ∈ lines, ∀ g ∈ line, g.Plain) :
    (lines.map spell).filter (fun cs => !cs.isEmpty)
      = (lines.filter fun gs => !gs.isEmpty).map spell := by
  rw [List.filter_map]
  refine congrArg (List.map spell) (List.filter_congr fun gs hgs => ?_)
  have hnil : (spell gs).isEmpty = gs.isEmpty := by
    rw [Bool.eq_iff_iff, List.isEmpty_iff, List.isEmpty_iff]
    exact spell_eq_nil_iff (h gs hgs)
  exact congrArg not hnil

/-- Empty lines are not read. -/
theorem flatMap_tokensOf_filter (lines : List (List Glyph)) :
    (lines.filter fun gs => !gs.isEmpty).flatMap tokensOf = lines.flatMap tokensOf := by
  refine flatMap_filter_of_nil fun gs _ hgs => ?_
  obtain rfl : gs = [] := by simpa using hgs
  rfl

/-- The music lines are spelled with glyphs whose ties fit, and are read to their end. -/
theorem Table.Playable.exists_musicLines {t : Table} (h : t.Playable) :
    ∃ lines s, t.musicLines.map String.toList = lines.map spell ∧ s.Settled
      ∧ Carried none .silent s lines := by
  choose glyphs hspell hspaced hplain htokens using h.exists_blockMusic
  obtain ⟨s, hsettled, hafter⟩ := h.settled
  have hflat : t.lyricBlocks.flatMap (fun b => tokensOf (glyphs b)) = t.lyrics.flatMap Row.tokens := by
    rw [List.flatMap_congr fun b _ => htokens b, ← List.flatMap_assoc]
    exact congrArg (List.flatMap Row.tokens) (flatMap_distinct_of_le h.ordered)
  rw [← hflat] at hafter
  obtain ⟨tidied, htidied⟩ : ∃ tidied, tidied = t.lyricBlocks.map fun b => Glyph.tidy (glyphs b) :=
    ⟨_, rfl⟩
  have htidy : ∀ b ∈ t.lyricBlocks, Line.tidy (t.blockMusic b) = spell (Glyph.tidy (glyphs b))
      ∧ Tidied (Glyph.tidy (glyphs b)) := by
    intro b hb
    obtain ⟨u, u', hread⟩ := Tying.exists_after_of_mem hafter b hb
    obtain ⟨hline, htidied⟩ := tidy_spell (hplain b) hread
    exact ⟨(hspell b) ▸ hline, htidied (hspaced b)⟩
  have hlines : ∀ line ∈ tidied, Tidied line ∧ Tying.Whole (tokensOf line) := by
    intro line hline
    rw [htidied] at hline
    obtain ⟨b, hb, rfl⟩ := List.mem_map.1 hline
    refine ⟨(htidy b hb).2, fun u u' hu hread => ?_⟩
    rw [after_tidy, htokens] at hread
    refine Tying.Whole.flatMap (fun r hr => ?_) u u' hu hread
    exact (h.rows r (List.mem_filter.1 hr).1).whole
  have hchars : t.lyricBlocks.map (fun b => Line.tidy (t.blockMusic b)) = tidied.map spell := by
    rw [htidied, List.map_map]
    exact List.map_congr_left fun b hb => (htidy b hb).1
  have hread : Tying.silent.after ((tidied.filter fun gs => !gs.isEmpty).flatMap tokensOf)
      = some s := by
    rw [flatMap_tokensOf_filter, htidied, List.flatMap_map,
      Tying.after_flatMap_congr fun b _ u => after_tidy (glyphs b) u, hafter]
  obtain ⟨carried, hcarry, hcarried⟩ := exists_carryTies
    (fun line hline => (hlines line (List.mem_filter.1 hline).1).1)
    (fun line hline => (hlines line (List.mem_filter.1 hline).1).2) hread
  refine ⟨carried, s, ?_, hsettled, hcarried⟩
  have hlast : ∀ css : List (List Char), (css.map String.ofList).map String.toList = css := by
    simp [Function.comp_def]
  unfold Table.musicLines
  dsimp only
  rw [hchars, filter_spell fun line hline => (hlines line hline).1.plain, hcarry, hlast]

-- =============================================================== ties

/-- A tie is the one token whose characters have a stroke. -/
theorem Glyph.Plain.not_mem_chars {g : Glyph} (h : g.Plain) (htie : g ≠ .token .tie) :
    '-' ∉ g.chars := by
  have hinked : ∀ {w : List Char}, Inked w → '-' ∉ w := by
    intro w hw hmem
    rcases hw.1 _ hmem with hspace | hink
    · exact absurd hspace (by decide)
    · exact absurd hink (by decide)
  cases g with
  | space => decide
  | token t =>
      rcases Token.Plain.cases h with rfl | rfl | ⟨-, name, value, rfl, hink⟩ | ⟨-, -, -, hink⟩
      · decide
      · exact absurd rfl htie
      · exact List.not_mem_cons_of_ne_of_not_mem (by decide) (hinked hink)
      · exact hinked hink

/-- A stroke in a line is a tie among its glyphs. -/
theorem exists_tie_of_spell {gs : List Glyph} (h : ∀ g ∈ gs, g.Plain) {pre post : List Char}
    (hspell : spell gs = pre ++ '-' :: post) :
    ∃ front back, gs = front ++ .token .tie :: back ∧ spell front = pre ∧ spell back = post := by
  induction gs generalizing pre with
  | nil => simp at hspell
  | cons g gs ih =>
      obtain ⟨hg, hgs⟩ := List.forall_mem_cons.1 h
      by_cases htie : g = .token .tie ∧ pre = []
      · obtain ⟨rfl, rfl⟩ := htie
        obtain ⟨-, rfl⟩ := List.cons.inj hspell
        exact ⟨[], gs, rfl, rfl, rfl⟩
      · -- the glyph stands before the stroke
        obtain ⟨more, rfl, hmore⟩ :
            ∃ more, pre = g.chars ++ more ∧ spell gs = more ++ '-' :: post := by
          rw [spell_cons] at hspell
          rcases List.append_eq_append_iff.1 hspell with ⟨more, hpre, hmore⟩ | ⟨more, hchars, hmore⟩
          · exact ⟨more, hpre, hmore⟩
          · cases more with
            | nil => exact ⟨[], by rw [hchars, List.append_nil, List.append_nil], hmore.symm⟩
            | cons c more =>
                obtain ⟨rfl, -⟩ := List.cons.inj hmore
                by_cases hg' : g = .token .tie
                · subst hg'
                  cases pre with
                  | nil => exact absurd ⟨rfl, rfl⟩ htie
                  | cons c pre =>
                      have hlength := congrArg List.length hchars
                      simp [Glyph.chars, Token.chars] at hlength
                · exact absurd (hchars ▸ List.mem_append_right _ List.mem_cons_self)
                    (hg.not_mem_chars hg')
        obtain ⟨front, back, rfl, rfl, rfl⟩ := ih hgs hmore
        exact ⟨g :: front, back, rfl, rfl, rfl⟩

theorem Fit.fits_of_eq {previous : Option (List Glyph)} {before after : List (List Glyph)}
    {line : List Glyph} (h : Fit previous (before ++ line :: after)) :
    Fits (before.getLast?.or previous) line := by
  induction before generalizing previous with
  | nil => exact h.1
  | cons first before ih =>
      have hfits := ih h.2
      cases before with
      | nil => exact hfits
      | cons second before =>
          rw [List.getLast?_cons_cons]
          rwa [List.getLast?_cons, Option.some_or] at hfits ⊢

/-- The tokens of some lines, read one after the other. -/
def readLines? (lines : List String) : Option (List Token) :=
  (lines.mapM fun line => tokens line.toList).map List.flatten

theorem tokens_of_spell {gs : List Glyph} (h : ∀ g ∈ gs, g.Plain) :
    tokens (spell gs) = some (tokensOf gs) := by
  have hlegible : ∀ t ∈ tokensOf gs, t.Legible := fun t ht => (plain_iff.1 h t ht).legible
  have hread := (@tokens_spell gs hlegible [] (by simp [Fresh])).2
  rwa [List.append_nil, tokens_nil, Option.map_some, List.append_nil] at hread

theorem readLines?_of_spell {lines : List String} {gss : List (List Glyph)}
    (h : lines.map String.toList = gss.map spell) (hplain : ∀ gs ∈ gss, ∀ g ∈ gs, g.Plain) :
    readLines? lines = some (gss.flatMap tokensOf) := by
  have hmap : (lines.mapM fun line => tokens line.toList) = gss.mapM fun gs => tokens (spell gs) :=
    calc (lines.mapM fun line => tokens line.toList)
        = (lines.map String.toList).mapM tokens := List.mapM_map.symm
      _ = (gss.map spell).mapM tokens := by rw [h]
      _ = gss.mapM fun gs => tokens (spell gs) := List.mapM_map
  unfold readLines?
  rw [hmap, mapM_eq_some fun gs hgs => tokens_of_spell (hplain gs hgs), Option.map_some,
    ← List.flatMap_def]

/-- A text that ends right behind a note of the given pitch. -/
def EndsOn (pitch : Letter × Int) (cs : List Char) : Prop :=
  ∃ ts a q, tokens cs = some (ts ++ [.note a pitch.1 pitch.2 q])
    ∧ (Token.note a pitch.1 pitch.2 q).chars <:+ cs

/-- A text with neither notes nor rests. -/
def Noteless (cs : List Char) : Prop :=
  ∃ ts, tokens cs = some ts ∧ ∀ t ∈ ts, t.isGap = true

/-- A tie mark in a line, with what stands before and behind it in the line and the lines before and
after. The note before the mark and the note behind it have one pitch. The mark stands right behind
its note, or a gap before it opens the line; then there is a barline in the gap, or the line before
has no notes. -/
def TiesNotes (before : List String) (pre post : List Char) (after : List String) : Prop :=
  ∃ pitch bs ts us cs, readLines? before = some bs ∧ tokens pre = some ts ∧ tokens post = some us
    ∧ readLines? after = some cs
    ∧ lastPitch? (bs ++ ts) = some pitch ∧ nextPitch? (us ++ cs) = some pitch
    ∧ (EndsOn pitch pre ∨ (∀ t ∈ ts, t.isGap = true)
      ∧ (.bar ∈ ts ∨ ∃ line, before.getLast? = some line ∧ Noteless line.toList))

theorem tokensOf_flatten (gss : List (List Glyph)) : tokensOf gss.flatten = gss.flatMap tokensOf := by
  induction gss with
  | nil => rfl
  | cons gs gss ih => rw [List.flatten_cons, tokensOf_append, ih, List.flatMap_cons]

/-- The ties of lines that are read and fit. -/
theorem Carried.tiesNotes {lines : List (List Glyph)} {s : Tying} (h : Carried none .silent s lines)
    (hs : s.Settled) {before after : List String} {line : String} {pre post : List Char}
    (hlines : (before ++ line :: after).map String.toList = lines.map spell)
    (hline : line.toList = pre ++ '-' :: post) : TiesNotes before pre post after := by
  rw [List.map_append, List.map_cons] at hlines
  obtain ⟨gbefore, rest, rfl, hbefore, hrest⟩ := List.map_eq_append_iff.1 hlines.symm
  obtain ⟨gline, gafter, rfl, hspell, hafter⟩ := List.map_eq_cons_iff.1 hrest
  obtain ⟨hplainBefore, hplain⟩ := List.forall_mem_append.1 h.plain
  obtain ⟨hplainLine, hplainAfter⟩ := List.forall_mem_cons.1 hplain
  obtain ⟨front, back, rfl, rfl, rfl⟩ := exists_tie_of_spell hplainLine (hspell.trans hline)
  obtain ⟨hplainFront, hplainBack⟩ := List.forall_mem_append.1 hplainLine
  have hread : Tying.silent.after
      (tokensOf ((gbefore.flatten ++ front) ++ .token .tie :: (back ++ gafter.flatten))) = some s := by
    rw [← h.after, ← tokensOf_flatten]
    simp
  obtain ⟨pitch, hsung, htied⟩ := exists_of_after_tie hread
  rw [tokensOf_append, tokensOf_flatten] at hsung htied
  have hlast := Tying.lastPitch?_of_after hsung
  refine ⟨pitch, _, _, _, _, readLines?_of_spell hbefore.symm hplainBefore,
    tokens_of_spell hplainFront, tokens_of_spell (List.forall_mem_cons.1 hplainBack).2,
    readLines?_of_spell hafter.symm hplainAfter, hlast, Tying.nextPitch?_of_after htied hs, ?_⟩
  rcases h.fit.fits_of_eq front back rfl with ⟨g, hg, hnote⟩ | ⟨hgap, hwhy⟩
  · left
    obtain ⟨a, letter, octave, q, rfl⟩ := Glyph.exists_note hnote
    obtain ⟨front, rfl⟩ := List.getLast?_eq_some_iff.1 hg
    obtain rfl : (letter, octave) = pitch := by
      rw [tokensOf_append, ← List.append_assoc] at hlast
      simpa [lastPitch?, Token.isGap] using hlast
    refine ⟨tokensOf front, a, q, ?_, ?_⟩
    · rw [tokens_of_spell hplainFront, tokensOf_append]
      rfl
    · rw [spell_append]
      simp [Glyph.chars]
  · right
    have hgapTokens := isGap_tokensOf hgap
    refine ⟨hgapTokens, ?_⟩
    rcases hwhy with hbar | hsilent
    · exact Or.inl (mem_tokensOf.2 hbar)
    · right
      cases hlastLine : gbefore.getLast? with
      | none =>
          -- nothing is sung at the head of the first line
          obtain rfl := List.getLast?_eq_none_iff.1 hlastLine
          rw [List.flatMap_nil, List.nil_append, Tying.after_gap (by simp) hgapTokens] at hsung
          cases hsung
      | some last =>
          rw [hlastLine, Option.some_or] at hsilent
          have hgetLast := congrArg List.getLast? hbefore
          rw [List.getLast?_map, List.getLast?_map, hlastLine] at hgetLast
          obtain ⟨line', hline', hspell'⟩ := Option.map_eq_some_iff.1 hgetLast.symm
          refine ⟨line', hline', tokensOf last, ?_, isGap_tokensOf (hsilent last rfl)⟩
          rw [hspell']
          exact tokens_of_spell (hplainBefore last (List.mem_of_getLast? hlastLine))

theorem Table.Playable.tiesNotes {t : Table} (h : t.Playable) {before after : List String}
    {line : String} {pre post : List Char} (hlines : t.musicLines = before ++ line :: after)
    (hline : line.toList = pre ++ '-' :: post) : TiesNotes before pre post after := by
  obtain ⟨lines, s, hspell, hsettled, hcarried⟩ := h.exists_musicLines
  rw [hlines] at hspell
  exact hcarried.tiesNotes hsettled hspell hline

end LyricScore
