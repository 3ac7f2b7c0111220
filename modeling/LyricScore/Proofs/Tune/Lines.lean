/-
The lines of a finished table. Whatever the rows of a block write, it is spelled with glyphs in which
a tie stands right before its note (`Penned`), so every line comes out neat, and so it does when ties
have been handed over. A line in print has single spaces, none at its ends or before a barline, and
one behind each barline that neither ends it nor stands before another (`Line.Regular`).
-/
import LyricScore.Proofs.Tune.Conservation
import LyricScore.Proofs.Tune.Handover
import LyricScore.Proofs.Tune.Playable

namespace LyricScore

open Text

-- =========================================================== regular

namespace Text

theorem squeeze_squeeze (cs : List Char) : squeeze (squeeze cs) = squeeze cs := by
  unfold squeeze
  rw [words_joinWith fun w hw => isWord_of_mem_words hw]

namespace Tight

theorem eq_space {cs : List Char} (h : Tight cs) {c : Char} (hc : c ∈ cs) (hblank : isBlank c = true) :
    c = ' ' := by
  obtain ⟨w, ws, hws, rfl⟩ := h.exists_words
  rcases mem_joinWith hc with hspace | ⟨v, hv, hcv⟩
  · exact List.mem_singleton.1 hspace
  · rw [(hws v hv).2 c hcv] at hblank
    cases hblank

/-- No two spaces stand together. -/
theorem isChain {cs : List Char} (h : Tight cs) : cs.IsChain fun a b => a = ' ' → b ≠ ' ' := by
  have hne : ∀ {v : List Char}, IsWord v → ∀ c ∈ v, c ≠ ' ' := by
    rintro v hv c hc rfl
    exact absurd (hv.2 ' ' hc) (by decide)
  have hword : ∀ {v : List Char}, IsWord v → v.IsChain fun a b => a = ' ' → b ≠ ' ' := fun hv =>
    (List.pairwise_of_forall_mem_list fun a ha _ _ hspace => absurd hspace (hne hv a ha)).isChain
  obtain ⟨w, ws, hws, rfl⟩ := h.exists_words
  clear h
  induction ws generalizing w with
  | nil =>
      rw [joinWith_singleton]
      exact hword (hws w List.mem_cons_self)
  | cons v ws ih =>
      obtain ⟨hw, hrest⟩ := List.forall_mem_cons.1 hws
      rw [joinWith_cons_cons]
      refine List.isChain_append.2 ⟨hword hw, List.isChain_cons.2 ⟨?_, ih v hrest⟩, ?_⟩
      · intro c hc _
        obtain ⟨u, hu, hcu⟩ := mem_of_ends_joinWith (fun u hu => (hrest u hu).1) (Or.inl hc)
        exact hne (hrest u hu) c hcu
      · exact fun a ha _ _ hspace => absurd hspace (hne hw a (List.mem_of_getLast? ha))

end Tight

end Text

/-- A line as it is printed. -/
structure Line.Regular (cs : List Char) : Prop where
  ne_nil : cs ≠ []
  blank : ∀ c ∈ cs, isBlank c = true → c = ' '
  head : cs.head? ≠ some ' '
  last : cs.getLast? ≠ some ' '
  spaces : cs.IsChain fun a b => a = ' ' → b ≠ ' '
  bars : cs.IsChain fun a b => (a = ' ' → b ≠ '|') ∧ (a = '|' → b = '|' ∨ b = ' ')
  tidy : Line.tidy cs = cs

variable {gs : List Glyph} {g : Glyph}

/-- What ends with a space or a barline is one. -/
theorem Glyph.Plain.getLast?_chars (h : g.Plain) :
    (g.chars.getLast? = some ' ' → g = .space) ∧ (g.chars.getLast? = some '|' → g = .token .bar) := by
  have hink : ∀ {w : List Char} {c : Char}, Inked w → w.getLast? = some c → isInk c = true :=
    fun hw hc => hw.2 _ hc
  cases g with
  | space => exact ⟨fun _ => rfl, fun hbar => absurd hbar (by decide)⟩
  | token t =>
      rcases Token.Plain.cases h with rfl | rfl | ⟨-, name, value, rfl, -⟩ | ⟨-, -, -, hw⟩
      · exact ⟨fun hspace => absurd hspace (by decide), fun _ => rfl⟩
      · exact ⟨fun hspace => absurd hspace (by decide), fun hbar => absurd hbar (by decide)⟩
      · have hlast : (Glyph.token (.field name value)).chars.getLast? = some ']' := by
          show (('[' :: name :: ':' :: value) ++ [']']).getLast? = _
          rw [List.getLast?_concat]
        rw [hlast]
        exact ⟨fun hspace => absurd hspace (by decide), fun hbar => absurd hbar (by decide)⟩
      · exact ⟨fun hspace => absurd (hink hw hspace) (by decide),
          fun hbar => absurd (hink hw hbar) (by decide)⟩

/-- Inside a glyph there is no barline. -/
theorem Glyph.Plain.isChain_chars (h : g.Plain) :
    g.chars.IsChain fun a b => (a = ' ' → b ≠ '|') ∧ (a = '|' → b = '|' ∨ b = ' ') := by
  have hink : ∀ {w : List Char}, Inked w →
      w.IsChain fun a b => (a = ' ' → b ≠ '|') ∧ (a = '|' → b = '|' ∨ b = ' ') := by
    intro w hw
    have hbar : ∀ c ∈ w, c ≠ '|' := by
      rintro c hc rfl
      rcases hw.1 _ hc with hc | hc <;> exact absurd hc (by decide)
    exact (List.pairwise_of_forall_mem_list fun a ha b hb =>
      ⟨fun _ => hbar b hb, fun h => absurd h (hbar a ha)⟩).isChain
  cases g with
  | space => exact .singleton _
  | token t =>
      rcases Token.Plain.cases h with rfl | rfl | ⟨-, name, value, rfl, hw⟩ | ⟨-, -, -, hw⟩
      · exact .singleton _
      · exact .singleton _
      · refine List.isChain_cons.2 ⟨fun c _ => ⟨fun hc => absurd hc (by decide), fun hc =>
          absurd hc (by decide)⟩, hink hw⟩
      · exact hink hw

/-- A line whose barlines are neat is printed so. -/
theorem isChain_spell (hplain : ∀ g ∈ gs, g.Plain) (h : gs.IsChain Abuts) :
    (spell gs).IsChain fun a b => (a = ' ' → b ≠ '|') ∧ (a = '|' → b = '|' ∨ b = ' ') := by
  induction gs with
  | nil => exact .nil
  | cons g gs ih =>
      obtain ⟨hg, hgs⟩ := List.forall_mem_cons.1 hplain
      obtain ⟨hnext, hrest⟩ := List.isChain_cons.1 h
      rw [spell_cons]
      refine List.isChain_append.2 ⟨hg.isChain_chars, ih hgs hrest, ?_⟩
      intro a ha b hb
      cases gs with
      | nil => cases hb
      | cons next gs =>
          obtain ⟨c, cs, hchars, hspace, hbar, -⟩ := (hgs next List.mem_cons_self).exists_chars
          rw [spell_cons, hchars] at hb
          obtain rfl := Option.some.inj hb
          have habuts := hnext next rfl
          constructor
          · rintro rfl hc
            exact habuts.1 (hg.getLast?_chars.1 ha) (hbar.1 hc)
          · rintro rfl
            have hbreak := habuts.2 (hg.getLast?_chars.2 ha)
            rw [hspace, hbar]
            cases next with
            | space => exact Or.inr rfl
            | token t =>
                cases t with
                | bar => exact Or.inl rfl
                | _ => cases hbreak

/-- A neat line is printed regularly. -/
theorem Neat.regular (h : Neat gs) (hne : gs ≠ []) : Line.Regular (spell gs) := by
  have htidy := h.tidy_eq
  have hnil : spell gs ≠ [] := mt (spell_eq_nil_iff h.plain).1 hne
  have htight : Tight (spell gs) := by
    refine ⟨hnil, ?_⟩
    rw [← htidy]
    exact squeeze_squeeze _
  refine ⟨hnil, fun c => htight.eq_space, fun hhead => ?_, fun hlast => ?_, htight.isChain,
    isChain_spell h.plain h.ruled, htidy⟩
  · exact absurd (htight.head?_isBlank hhead) (by decide)
  · exact absurd (htight.getLast?_isBlank hlast) (by decide)

-- ============================================================= solid

/-- A text without a space. -/
def Solid (text : String) : Prop :=
  ' ' ∉ text.toList

instance (text : String) : Decidable (Solid text) :=
  inferInstanceAs (Decidable (' ' ∉ text.toList))

namespace Solid

variable {a b : String}

theorem append (ha : Solid a) (hb : Solid b) : Solid (a ++ b) := by
  unfold Solid
  rw [String.toList_append, List.mem_append]
  exact fun hmem => hmem.elim ha hb

theorem of_ink (h : ∀ c ∈ a.toList, isInk c = true) : Solid a := fun hmem =>
  absurd (h ' ' hmem) (by decide)

theorem empty : Solid "" :=
  List.not_mem_nil

theorem join {texts : List String} (h : ∀ text ∈ texts, Solid text) : Solid (String.join texts) := by
  induction texts with
  | nil => exact empty
  | cons text texts ih =>
      obtain ⟨htext, htexts⟩ := List.forall_mem_cons.1 h
      rw [String.join_cons]
      exact htext.append (ih htexts)

end Solid

theorem Row.Tuned.solid_encode {r : Row} (h : r.Tuned) {length : Rat} (hlength : 0 < length)
    {opening : String} (hopening : Solid opening) : Solid (r.encode length opening) := by
  have hwritten : Solid (lengthText length) := .of_ink fun c hc => (ink_lengthText hlength hc).1
  have hmark : ∀ accidental : Accidental, Solid accidental.mark := by
    intro accidental
    cases accidental
    all_goals exact .of_ink (forall_mem_of_all (by decide))
  unfold Row.encode
  rcases h.silent_or_sings with ⟨hsilent, -⟩ | ⟨letter, octave, hsings, -, hletter, hoctave⟩
  · rw [if_pos hsilent]
    exact (hopening.append (by decide)).append hwritten
  · have hpitch : Solid r.pitchText := by
      unfold Row.pitchText
      rw [hletter, hoctave]
      exact .of_ink fun c hc => ((ink_tunePitch letter octave).2 c hc).1
    rw [if_neg (by simp [hsings])]
    split
    · exact ((Solid.append (by decide) hopening).append hpitch).append hwritten
    · exact ((hopening.append (hmark _)).append hpitch).append hwritten

theorem BeatGroup.solid_opening (g : BeatGroup) : Solid g.opening := by
  unfold BeatGroup.opening
  split
  · next hbracketed =>
    have hlegible := (Reads.of_needsTuplet hbracketed).1 _ List.mem_cons_self
    exact .of_ink (Token.Plain.ink (.of_legible hlegible rfl) rfl (by simp)).2
  · exact .empty

/-- The texts of runs, dotted or not, have no space if those of their rows have none. -/
theorem PlacedBeat.solid_dotRuns {b : PlacedBeat} (hlength : 0 < b.length) {runs : List (List Row)}
    (hruns : ∀ run ∈ runs, ∀ r ∈ run, r.Tuned ∧ Solid (r.noteText.getD "")) {position : Nat}
    {text : String} {count : Nat} (h : b.dotRuns position runs = .ok (text, count)) : Solid text := by
  induction runs generalizing position text count with
  | nil =>
      obtain ⟨rfl, -⟩ := Prod.mk.inj (Except.ok.inj h)
      exact .empty
  | cons run rest ih =>
      obtain ⟨hrun, hrest⟩ := List.forall_mem_cons.1 hruns
      cases hdots : b.dots position run.length with
      | error e =>
          simp only [dotRuns, hdots] at h
          cases h
      | ok dotted =>
          cases hmore : b.dotRuns (position + run.length) rest with
          | error e =>
              simp only [dotRuns, hdots, hmore] at h
              cases h
          | ok more =>
              rw [b.dotRuns_cons hdots hmore] at h
              obtain ⟨rfl, -⟩ := Prod.mk.inj (Except.ok.inj h)
              have hplain : Solid (String.join (run.map fun r => r.noteText.getD "")) := by
                refine .join fun text htext => ?_
                obtain ⟨r, hr, rfl⟩ := List.mem_map.1 htext
                exact (hrun r hr).2
              refine Solid.append ?_ (ih hrest hmore)
              cases run with
              | nil => exact hplain
              | cons head run =>
                  cases dotted with
                  | false => exact hplain
                  | true =>
                      have hpos : 0 < b.length * ((head :: run).length : Rat) :=
                        Rat.mul_pos hlength (by exact_mod_cast Nat.succ_pos _)
                      exact (hrun head List.mem_cons_self).1.solid_encode hpos .empty

-- ============================================================ penned

open Glyph

theorem Held.of_gap (h : ∀ g ∈ gs, g.isGap = true) : Held gs := by
  induction gs with
  | nil => trivial
  | cons g gs ih =>
      obtain ⟨hg, hgs⟩ := List.forall_mem_cons.1 h
      refine ⟨fun hopens => ?_, ih hgs⟩
      rw [opens_of_isGap hg] at hopens
      cases hopens

/-- A tie or the opening of a tuplet is right before the note or rest of its row. -/
theorem held_script (r : Row) (length : Rat) {opening : List Token}
    (hopening : opening = [] ∨ ∃ count time, opening = [.tuplet count time]) :
    Held ((r.script length opening).map .token) := by
  have hlast : ∀ {t : Token}, (Glyph.token t).opens = false → Held [.token t] := fun ht =>
    ⟨fun hopens => absurd hopens (by simp [ht]), trivial⟩
  have hnext : ∀ {t u : Token} {ts : List Glyph}, (Glyph.token u).isInked = true →
      Held (.token u :: ts) → Held (.token t :: .token u :: ts) := fun hu hts =>
    ⟨fun _ => ⟨_, rfl, hu⟩, hts⟩
  unfold Row.script
  cases r.pitch? with
  | none =>
      rcases hopening with rfl | ⟨count, time, rfl⟩
      · exact hlast rfl
      · exact hnext rfl (hlast rfl)
  | some pitch =>
      cases r.isHold with
      | true =>
          rcases hopening with rfl | ⟨count, time, rfl⟩
          · exact hnext rfl (hlast rfl)
          · exact hnext rfl (hnext rfl (hlast rfl))
      | false =>
          rcases hopening with rfl | ⟨count, time, rfl⟩
          · exact hlast rfl
          · exact hnext rfl (hlast rfl)

theorem script_ne_nil (r : Row) (length : Rat) (opening : List Token) :
    r.script length opening ≠ [] := by
  unfold Row.script
  split <;> simp

theorem Dotted.held {length : Rat} {rows : List Row} {ts : List Token} (h : Dotted length rows ts) :
    Held (ts.map .token) := by
  induction h with
  | nil => trivial
  | row r _ ih =>
      rw [List.map_append]
      exact (held_script r length (Or.inl rfl)).append ih
  | @dot x _ _ _ _ _ _ _ ih =>
      rw [List.map_append]
      exact (held_script x (length * 3) (Or.inl rfl)).append ih

theorem Dotted.ne_nil {length : Rat} {rows : List Row} {ts : List Token} (h : Dotted length rows ts)
    (hrows : rows ≠ []) : ts ≠ [] := by
  cases h with
  | nil => exact absurd rfl hrows
  | row r _ => exact List.append_ne_nil_of_left_ne_nil (script_ne_nil r _ _) _
  | @dot x => exact List.append_ne_nil_of_left_ne_nil (script_ne_nil x _ _) _

namespace BeatGroup

variable {g : BeatGroup} {ts : List Token}

theorem held_script (g : BeatGroup) : Held (g.script.map .token) := by
  have hothers := (Dotted.plain g.length (g.others.map (·.1))).held
  rw [List.flatMap_map] at hothers
  unfold script
  rw [List.map_append]
  exact (LyricScore.held_script _ _ g.bracket_cases).append hothers

/-- Whatever is written for a beat, ties are right before their notes. -/
theorem Writes.held (h : g.Writes ts) : Held (ts.map .token) := by
  cases h with
  | rows => exact g.held_script
  | dotted h => exact h.held
  | longer _ length => exact LyricScore.held_script _ length (Or.inl rfl)
  | part => trivial

end BeatGroup

/-- A text that is spelled with glyphs in which ties stand right before their notes. -/
def Penned (text : String) : Prop :=
  ∃ gs, text.toList = spell gs ∧ tokensOf gs = lexed text ∧ (∀ g ∈ gs, g.Plain) ∧ Held gs

namespace Penned

variable {text : String} {ts : List Token}

theorem empty : Penned "" :=
  ⟨[], rfl, Reads.empty.lexed_eq.symm, fun _ hg => absurd hg List.not_mem_nil, trivial⟩

/-- Fields and barlines. -/
theorem of_gap (hreads : Reads text ts) (hplain : ∀ t ∈ ts, t.Plain)
    (hgap : ∀ t ∈ ts, t.isGap = true) : Penned text := by
  have hlexed := hreads.lexed_eq
  obtain ⟨-, gs, hspell, rfl, -⟩ := hreads
  refine ⟨gs, hspell, hlexed.symm, plain_iff.2 hplain, .of_gap fun g hg => ?_⟩
  cases g with
  | space => rfl
  | token t => exact hgap t (mem_tokensOf.2 hg)

/-- A text without a space has its tokens side by side. -/
theorem of_solid (hreads : Reads text ts) (hplain : ∀ t ∈ ts, t.Plain) (hsolid : Solid text)
    (hheld : Held (ts.map .token)) : Penned text := by
  have hlexed := hreads.lexed_eq
  obtain ⟨-, gs, hspell, rfl, -⟩ := hreads
  have hside : ∀ {gs : List Glyph}, ' ' ∉ spell gs → (tokensOf gs).map Glyph.token = gs := by
    intro gs
    induction gs with
    | nil => exact fun _ => rfl
    | cons g gs ih =>
        intro hno
        rw [spell_cons, List.mem_append, not_or] at hno
        cases g with
        | space => exact absurd List.mem_cons_self hno.1
        | token t => exact congrArg (Glyph.token t :: ·) (ih hno.2)
  rw [hside (hspell ▸ hsolid)] at hheld
  exact ⟨gs, hspell, hlexed.symm, plain_iff.2 hplain, hheld⟩

/-- Texts with a space between any two of them. -/
theorem exists_joinWith {texts : List String} (h : ∀ text ∈ texts, Penned text) :
    ∃ gs, joinWith [' '] (texts.map String.toList) = spell gs ∧ tokensOf gs = texts.flatMap lexed
      ∧ (∀ g ∈ gs, g.Plain) ∧ Held gs := by
  induction texts with
  | nil => exact ⟨[], rfl, rfl, fun _ hg => absurd hg List.not_mem_nil, trivial⟩
  | cons text texts ih =>
      obtain ⟨⟨gs, hspell, htokens, hplain, hheld⟩, hrest⟩ := List.forall_mem_cons.1 h
      cases texts with
      | nil => exact ⟨gs, by simpa using hspell, by simpa using htokens, hplain, hheld⟩
      | cons text' texts =>
          obtain ⟨hs, hspell', htokens', hplain', hheld'⟩ := ih hrest
          refine ⟨gs ++ .space :: hs, ?_, ?_, ?_, ?_⟩
          · rw [List.map_cons, List.map_cons, joinWith_cons_cons, ← List.map_cons, hspell', hspell,
              spell_append]
            rfl
          · rw [tokensOf_append, htokens, List.flatMap_cons, ← htokens']
            rfl
          · exact List.forall_mem_append.2 ⟨hplain, List.forall_mem_cons.2 ⟨trivial, hplain'⟩⟩
          · exact hheld.append ⟨fun hopens => Bool.noConfusion hopens, hheld'⟩

end Penned

-- ============================================================ blocks

theorem mem_neaten {t : Token} : .token t ∈ neaten gs ↔ .token t ∈ gs := by
  unfold neaten
  rw [← mem_tokensOf, tokensOf_tighten, mem_tokensOf, mem_fasten, ← mem_tokensOf, tokensOf_openBars,
    tokensOf_closeBars, tokensOf_tighten, mem_tokensOf]

/-- A line comes out empty if it has no tokens. -/
theorem neaten_eq_nil_iff : neaten gs = [] ↔ tokensOf gs = [] := by
  constructor
  · intro hnil
    refine List.eq_nil_iff_forall_not_mem.2 fun t ht => ?_
    have hmem : .token t ∈ neaten gs := mem_neaten.2 (mem_tokensOf.1 ht)
    rw [hnil] at hmem
    exact absurd hmem List.not_mem_nil
  · intro hnil
    have hhead : ∀ g ∈ (neaten gs).head?, False := by
      intro g hg
      cases g with
      | space => exact head?_tighten_ne_space _ hg
      | token t =>
          have ht := mem_tokensOf.2 (mem_neaten.1 (List.mem_of_head? hg))
          rw [hnil] at ht
          exact absurd ht List.not_mem_nil
    cases hgs : neaten gs with
    | nil => rfl
    | cons g gs => exact (hhead g (by rw [hgs]; rfl)).elim

namespace Table

/-- The blocks that have a row that takes time or a barline. -/
def spokenBlocks (t : Table) : List Int :=
  distinct ((t.filter Row.isSpoken).map (·.block))

theorem mem_spokenBlocks {t : Table} {block : Int} :
    block ∈ t.spokenBlocks ↔ ∃ r ∈ t, r.isSpoken = true ∧ r.block = block := by
  unfold spokenBlocks
  rw [mem_distinct]
  simp only [List.mem_map, List.mem_filter, and_assoc]

/-- A finished table whose blocks can be written as lines: every lyric row is penned, rows stand in
the order of their blocks, and the blocks that write anything are those that are spoken. -/
structure Penned (t : Table) : Prop where
  rows : ∀ r ∈ t.lyrics, LyricScore.Penned r.directive ∧ LyricScore.Penned r.text
  ordered : t.lyrics.Pairwise fun a b => a.block ≤ b.block
  spoken : ∀ block, block ∈ t.spokenBlocks
    ↔ (t.lyrics.filter fun r => decide (r.block = block)).flatMap Row.tokens ≠ []

theorem lt_of_mem_distinct {l : List Row} (h : l.Pairwise fun a b => a.block ≤ b.block) :
    (distinct (l.map (·.block))).Pairwise (· < ·) := by
  have hle : (distinct (l.map (·.block))).Pairwise (· ≤ ·) :=
    (List.pairwise_map.2 h).sublist (distinct_sublist _)
  exact hle.imp₂ (fun a b hab hne => Int.lt_iff_le_and_ne.2 ⟨hab, hne⟩) (nodup_distinct _)

namespace Penned

variable {t : Table}

/-- The blocks that write anything, in order. -/
theorem filter_lyricBlocks (h : t.Penned) {p : Int → Bool}
    (hp : ∀ block, p block = true ↔ block ∈ t.spokenBlocks) :
    t.lyricBlocks.filter p = t.spokenBlocks ∧ t.spokenBlocks.Pairwise (· < ·) := by
  have hsub : (t.filter Row.isSpoken).Sublist t.lyrics := by
    have hsame : t.filter Row.isSpoken = t.lyrics.filter Row.isSpoken := by
      unfold lyrics
      rw [List.filter_filter]
      refine List.filter_congr fun r _ => ?_
      cases hspoken : r.isSpoken with
      | false => rfl
      | true => simp [source_of_isSpoken hspoken]
    rw [hsame]
    exact List.filter_sublist
  have hspoken : t.spokenBlocks.Pairwise (· < ·) := lt_of_mem_distinct (h.ordered.sublist hsub)
  have hlyric : (t.lyricBlocks.filter p).Pairwise (· < ·) := (lt_of_mem_distinct h.ordered).filter _
  refine ⟨?_, hspoken⟩
  refine List.Perm.eq_of_pairwise (fun a b _ _ hab hba => absurd hba (Int.not_lt.2 (Int.le_of_lt hab))) hlyric
    hspoken ((List.perm_ext_iff_of_nodup hlyric.nodup hspoken.nodup).2 fun block => ?_)
  rw [List.mem_filter, hp]
  refine ⟨fun hboth => hboth.2, fun hmem => ⟨?_, hmem⟩⟩
  unfold lyricBlocks
  rw [mem_distinct]
  obtain ⟨r, hr, hrs, rfl⟩ := mem_spokenBlocks.1 hmem
  exact List.mem_map_of_mem (hsub.subset (List.mem_filter.2 ⟨hr, hrs⟩))

/-- What a block writes. -/
theorem exists_blockMusic (h : t.Penned) (block : Int) :
    ∃ gs, t.blockMusic block = spell gs ∧ (∀ g ∈ gs, g.Plain) ∧ Held gs
      ∧ tokensOf gs = (t.lyrics.filter fun r => decide (r.block = block)).flatMap Row.tokens := by
  have hmem : ∀ r ∈ t.lyrics.filter fun r => decide (r.block = block),
      LyricScore.Penned r.directive ∧ LyricScore.Penned r.text := fun r hr =>
    h.rows r (List.mem_filter.1 hr).1
  unfold blockMusic
  rw [filter_lyric_block]
  generalize t.lyrics.filter (fun r => decide (r.block = block)) = rows at hmem
  have hpieces : ∀ text ∈ rows.flatMap musicPieces, LyricScore.Penned text := by
    intro text htext
    obtain ⟨r, hr, htext⟩ := List.mem_flatMap.1 htext
    rcases List.mem_cons.1 (List.mem_filter.1 htext).1 with rfl | htext
    · exact (hmem r hr).1
    · obtain rfl := List.mem_singleton.1 htext
      exact (hmem r hr).2
  obtain ⟨gs, hspell, htokens, hplain, hheld⟩ := LyricScore.Penned.exists_joinWith hpieces
  rw [List.flatMap_assoc, List.flatMap_congr fun r _ => r.flatMap_musicPieces] at htokens
  exact ⟨gs, hspell, hplain, hheld, htokens⟩

/-- The music lines of a table that is penned: one for each block that is spoken, in order, with what
the block announces and writes. -/
theorem musicLines_spec (h : t.Penned) :
    (∀ line ∈ t.musicLines, Line.Regular line.toList)
      ∧ (t.musicLines.map fun line => residue line.toList)
        = t.spokenBlocks.map (fun block => residue (t.blockText block))
      ∧ t.spokenBlocks.Pairwise (· < ·) := by
  choose glyphs hspell hplain hheld htokens using h.exists_blockMusic
  have hline : ∀ block, Line.tidy (t.blockMusic block) = spell (neaten (glyphs block)) :=
    fun block => by rw [hspell, tidy_spell_neaten (hplain block)]
  have hmusic : ∀ block, MusicLine (neaten (glyphs block)) := fun block =>
    musicLine_neaten (hplain block) (hheld block)
  have hspoken : ∀ block, (!(neaten (glyphs block)).isEmpty) = true ↔ block ∈ t.spokenBlocks := by
    intro block
    rw [h.spoken, ← htokens]
    simp [neaten_eq_nil_iff]
  obtain ⟨hblocks, hordered⟩ := h.filter_lyricBlocks hspoken
  have hlines : (t.lyricBlocks.map fun block => Line.tidy (t.blockMusic block)).filter
        (fun line => !line.isEmpty)
      = (t.spokenBlocks.map fun block => neaten (glyphs block)).map spell := by
    have hall : t.lyricBlocks.map (fun block => Line.tidy (t.blockMusic block))
        = (t.lyricBlocks.map fun block => neaten (glyphs block)).map spell := by
      rw [List.map_map]
      exact List.map_congr_left fun block _ => hline block
    rw [hall, filter_spell, List.filter_map]
    · exact congrArg (fun blocks => (blocks.map fun block => neaten (glyphs block)).map spell) hblocks
    · intro line hmem
      obtain ⟨block, -, rfl⟩ := List.mem_map.1 hmem
      exact (hmusic block).plain
  have hmusicLines : ∀ line ∈ t.spokenBlocks.map (fun block => neaten (glyphs block)),
      MusicLine line ∧ line ≠ [] := by
    intro line hmem
    obtain ⟨block, hblock, rfl⟩ := List.mem_map.1 hmem
    refine ⟨hmusic block, ?_⟩
    simpa using (hspoken block).2 hblock
  have htext : ∀ css : List (List Char), (css.map String.ofList).map String.toList = css := by
    simp [Function.comp_def]
  refine ⟨fun line hmem => ?_, ?_, hordered⟩
  · unfold musicLines at hmem
    dsimp only at hmem
    rw [hlines, carryTies_spell fun line hline => (hmusicLines line hline).1, List.map_map] at hmem
    obtain ⟨gs, hgs, rfl⟩ := List.mem_map.1 hmem
    obtain ⟨hneat, hne⟩ := neat_settled hmusicLines none gs hgs
    rw [Function.comp_apply, String.toList_ofList]
    exact hneat.regular hne
  · have hresidue : (t.musicLines.map fun line => residue line.toList)
        = (t.musicLines.map String.toList).map residue := (List.map_map ..).symm
    unfold musicLines at hresidue ⊢
    dsimp only at hresidue ⊢
    rw [hresidue, htext, Line.map_residue_carryTies, hlines, List.map_map, List.map_map]
    refine List.map_congr_left fun block _ => ?_
    rw [Function.comp_apply, Function.comp_apply, ← hline]
    exact ((Line.rearranged_tidy _).trans (t.rearranged_blockMusic block)).residue

end Penned

end Table

end LyricScore
