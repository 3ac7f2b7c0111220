/-
The key that a tune is in. Key signatures are read along the pitch lines and announced along the
lyric lines, at two kinds of places: the first note of a block and its barlines. A reader of the
tune goes by what is announced; the key in force while the signatures are read is another thing.

The two agree behind every block, but for one case. The signature that opens a block goes to its
first note, and the ones behind it go to its barlines, so they are announced in their order only if
no barline stands before that note. Where the last signature that changed the key went to such a
barline, the opening one overtakes it, and the reader is left in the key of the opening one.

# The argument

A lyric row brings the key of the last signature that goes to its place. So the reader is left in
the key of the last row in the order of places that any signature goes to. Signatures in their order
(`KeyMark.Before`) go to blocks in order, and within a block to barlines in order, which leaves the
first note as the only place out of order.
-/
import LyricScore.Proofs.Pipeline.Stages
import LyricScore.Proofs.Tune.Reading

namespace LyricScore

-- ============================================================ replays

/-- The lyric rows of the blocks up to one. -/
def Table.lyricsTo (t : Table) (block : Int) : List Row :=
  t.filter fun r => decide (r.source = .lyric ∧ r.block ≤ block)

/-- The key behind a block for a reader who starts with the heading and goes along with the keys
that the lyric rows bring. -/
def Table.replayedKey (t : Table) (block : Int) : String :=
  (t.lyricsTo block).foldl (fun key r => r.key.getD key) ((t.field? "K").getD "")

/-- The key that a token names. -/
def Token.key? : Token → Option String
  | .field name value => if name = 'K' then some (String.ofList value) else none
  | _ => none

/-- The keys that stand in the directive and the draft of a row. -/
def Row.writtenKeys (r : Row) : List String :=
  (lexed r.directive ++ lexed (r.draftText.getD "")).filterMap Token.key?

/-- The key behind a block for a reader who sees nothing but the texts. -/
def Table.readKey (t : Table) (block : Int) : String :=
  ((t.lyricsTo block).flatMap Row.writtenKeys).foldl (fun _ key => key) ((t.field? "K").getD "")

/-- The key in force behind the pitch rows of the blocks up to one. -/
def Table.activeKey (t : Table) (block : Int) : Option String :=
  ((t.zipIdx.filter fun p => decide (p.1.block ≤ block)).foldl (Keys.State.behind t) {}).active

/-- The signatures of the blocks up to one. -/
def Table.keyMarksTo (t : Table) (block : Int) : List KeyMark :=
  t.keyMarks.filter fun m => decide (m.block ≤ block)

/-- Whether a signature that opens a block is announced behind one that went to a barline. -/
def KeyMark.overtakes (lead m : KeyMark) : Bool :=
  match lead.effect, m.effect with
  | .atNote note, .atBarline bar => lead.block == m.block && decide (bar < note)
  | _, _ => false

/-- The signature that overtakes the last change of key in the blocks up to one. -/
def Table.overtaking? (t : Table) (block : Int) : Option KeyMark :=
  (KeyMark.lastChange? (t.keyMarksTo block)).bind fun m =>
    (t.keyMarksTo block).find? fun lead => lead.overtakes m

theorem overtakes_eq_true {lead m : KeyMark} :
    lead.overtakes m = true ↔ ∃ note bar, lead.effect = .atNote note ∧ m.effect = .atBarline bar
      ∧ lead.block = m.block ∧ bar < note := by
  unfold KeyMark.overtakes
  split
  · next note bar hnote hbar =>
    rw [Bool.and_eq_true, beq_iff_eq, decide_eq_true_iff, hnote, hbar]
    constructor
    · intro h
      exact ⟨note, bar, rfl, rfl, h.1, h.2⟩
    · rintro ⟨note', bar', hnote', hbar', hblock, hlt⟩
      obtain rfl := KeyEffect.atNote.inj hnote'
      obtain rfl := KeyEffect.atBarline.inj hbar'
      exact ⟨hblock, hlt⟩
  · next hother =>
    constructor
    · intro h
      cases h
    · rintro ⟨note, bar, hnote, hbar, -⟩
      exact absurd hbar (hother note bar hnote)

/-- The last key brought is the one that stays. -/
theorem foldl_getD_of_last {α : Type} {f : α → Option String} {before after : List α} {a : α}
    {key : String} (ha : f a = some key) (hafter : ∀ b ∈ after, f b = none) (start : String) :
    (before ++ a :: after).foldl (fun key b => (f b).getD key) start = key := by
  have hnone : ∀ key : String, after.foldl (fun key b => (f b).getD key) key = key := by
    induction after with
    | nil => exact fun _ => rfl
    | cons b after ih =>
        obtain ⟨hb, hafter⟩ := List.forall_mem_cons.1 hafter
        intro key
        rw [List.foldl_cons, hb]
        exact ih hafter key
  rw [List.foldl_append, List.foldl_cons, ha]
  exact hnone key

/-- Along places, the last key brought stands at the last place that has one. -/
theorem foldl_getD_of_place {f : PlacedRow → Option String} {l : List PlacedRow}
    (hl : l.Pairwise fun p q => p.2 < q.2) {p : PlacedRow} (hp : p ∈ l) {key : String}
    (hkey : f p = some key) (hlater : ∀ q ∈ l, p.2 < q.2 → f q = none) (start : String) :
    l.foldl (fun key q => (f q).getD key) start = key := by
  obtain ⟨before, after, rfl⟩ := List.append_of_mem hp
  refine foldl_getD_of_last hkey (fun q hq => ?_) start
  have hlt := (List.pairwise_cons.1 (List.pairwise_append.1 hl).2.1).1 q hq
  exact hlater q (List.mem_append_right _ (List.mem_cons_of_mem _ hq)) hlt

theorem foldl_getD_of_none {α : Type} {f : α → Option String} {l : List α}
    (h : ∀ a ∈ l, f a = none) (start : String) :
    l.foldl (fun key a => (f a).getD key) start = start := by
  induction l with
  | nil => rfl
  | cons a l ih =>
      obtain ⟨ha, hl⟩ := List.forall_mem_cons.1 h
      rw [List.foldl_cons, ha]
      exact ih hl

-- ============================================== the state behind a block

/-- Only pitch rows have signatures. -/
theorem marks_filter_pitch (t : Table) (s : Keys.State) (rows : List PlacedRow) :
    Keys.marks t s (rows.filter fun p => decide (p.1.source = .pitch)) = Keys.marks t s rows := by
  induction rows generalizing s with
  | nil => rfl
  | cons p rows ih =>
      by_cases hsource : p.1.source = .pitch
      · rw [List.filter_cons_of_pos (by simpa using hsource), Keys.marks_cons, Keys.marks_cons, ih]
      · have hbehind : s.behind t p = s := if_pos hsource
        have hmark : Keys.mark? t s p = none := if_neg fun hboth => hsource hboth.1
        rw [List.filter_cons_of_neg (by simpa using hsource), Keys.marks_cons, hbehind, hmark, ih]
        rfl

/-- A list in the order of some number is cut in two by a bound. -/
theorem filter_append_filter_of_sorted {α : Type} {f : α → Int} {l : List α}
    (h : l.Pairwise fun a b => f a ≤ f b) (bound : Int) :
    l.filter (fun a => decide (f a ≤ bound)) ++ l.filter (fun a => decide (bound < f a)) = l := by
  induction l with
  | nil => rfl
  | cons a l ih =>
      obtain ⟨hfirst, hl⟩ := List.pairwise_cons.1 h
      by_cases ha : f a ≤ bound
      · rw [List.filter_cons_of_pos (by simpa using ha), List.filter_cons_of_neg (by simpa using ha),
          List.cons_append, ih hl]
      · -- nothing behind it is within the bound
        have hnone : l.filter (fun a => decide (f a ≤ bound)) = [] := by
          refine List.filter_eq_nil_iff.2 fun b hb => ?_
          have hle := hfirst b hb
          simp only [decide_eq_true_iff]
          omega
        have hall : l.filter (fun a => decide (bound < f a)) = l := by
          refine List.filter_eq_self.2 fun b hb => ?_
          have hle := hfirst b hb
          simp only [decide_eq_true_iff]
          omega
        rw [List.filter_cons_of_neg (by simpa using ha), List.filter_cons_of_pos (by simpa using ha),
          hnone, hall]
        rfl

/-- The signatures of the blocks up to one are read before all others, from the rows of those
blocks alone. -/
theorem Table.Measured.keyMarks_eq {t : Table} (h : t.Measured) (block : Int) :
    Keys.marks t {} (t.zipIdx.filter fun p => decide (p.1.block ≤ block)) = t.keyMarksTo block
      ∧ ∃ late, t.keyMarks = t.keyMarksTo block ++ late ∧ ∀ m ∈ late, block < m.block := by
  have hsorted : (t.zipIdx.filter fun p => decide (p.1.source = .pitch)).Pairwise
      fun p q => p.1.block ≤ q.1.block := by
    refine ((List.Pairwise.and_mem.1 (h.pairwise_pitch.filter _)).imp fun hboth => ?_)
    obtain ⟨hp, hq, hle⟩ := hboth
    exact hle (of_decide_eq_true (List.mem_filter.1 hp).2) (of_decide_eq_true (List.mem_filter.1 hq).2)
  have hcut := filter_append_filter_of_sorted hsorted block
  generalize hlow : (t.zipIdx.filter fun p => decide (p.1.source = .pitch)).filter
    (fun p => decide (p.1.block ≤ block)) = low at hcut
  generalize hhigh : (t.zipIdx.filter fun p => decide (p.1.source = .pitch)).filter
    (fun p => decide (block < p.1.block)) = high at hcut
  have hmarks : t.keyMarks = Keys.marks t {} low
      ++ Keys.marks t (low.foldl (Keys.State.behind t) {}) high := by
    rw [← Keys.marks_append, hcut, marks_filter_pitch]
    rfl
  have hlowRows : ∀ p ∈ low, p ∈ t.zipIdx ∧ p.1.block ≤ block := by
    intro p hp
    rw [← hlow] at hp
    obtain ⟨hp, hle⟩ := List.mem_filter.1 hp
    exact ⟨(List.mem_filter.1 hp).1, of_decide_eq_true hle⟩
  have hhighRows : ∀ p ∈ high, p ∈ t.zipIdx ∧ block < p.1.block := by
    intro p hp
    rw [← hhigh] at hp
    obtain ⟨hp, hlt⟩ := List.mem_filter.1 hp
    exact ⟨(List.mem_filter.1 hp).1, of_decide_eq_true hlt⟩
  have hlowBlock : ∀ m ∈ Keys.marks t {} low, m.block ≤ block := by
    intro m hm
    obtain ⟨-, p, hp, -, hblock⟩ := marks_sound (fun p hp => (hlowRows p hp).1) hm
    rw [hblock]
    exact (hlowRows p hp).2
  have hhighBlock : ∀ m ∈ Keys.marks t (low.foldl (Keys.State.behind t) {}) high, block < m.block := by
    intro m hm
    obtain ⟨-, p, hp, -, hblock⟩ := marks_sound (fun p hp => (hhighRows p hp).1) hm
    rw [hblock]
    exact (hhighRows p hp).2
  have hto : t.keyMarksTo block = Keys.marks t {} low := by
    unfold Table.keyMarksTo
    rw [hmarks, List.filter_append, List.filter_eq_self.2 fun m hm => decide_eq_true (hlowBlock m hm),
      List.filter_eq_nil_iff.2, List.append_nil]
    intro m hm
    have hlt := hhighBlock m hm
    simp only [decide_eq_true_iff]
    omega
  refine ⟨?_, _, hto ▸ hmarks, hhighBlock⟩
  rw [hto, ← hlow, ← marks_filter_pitch, List.filter_filter, List.filter_filter]
  congr 1
  refine List.filter_congr fun p _ => ?_
  rw [Bool.and_comm]

/-- What is known behind the rows of the blocks up to one. -/
theorem Table.Measured.seen_keyMarksTo {t : Table} (h : t.Measured) (block : Int) :
    Keys.Seen t ((t.zipIdx.filter fun p => decide (p.1.block ≤ block)).foldl (Keys.State.behind t) {})
      (t.zipIdx.filter fun p => decide (p.1.block ≤ block)) (t.keyMarksTo block) := by
  have hseen := (Keys.Seen.start t).run (h.pairwise_pitch.filter fun p => decide (p.1.block ≤ block))
    fun block hs => (Option.some_ne_none block hs.symm).elim
  rw [List.nil_append, List.nil_append, (h.keyMarks_eq block).1] at hseen
  exact hseen

/-- Where a pitch row was read, the key in force is that of the last signature not dropped. -/
theorem Table.Measured.activeKey_eq {t : Table} (h : t.Measured) {block : Int}
    (hpitch : ∃ r ∈ t, r.source = .pitch ∧ r.block ≤ block) :
    t.activeKey block = some (KeyMark.lastKey (t.keyMarksTo block)) := by
  have hseen := h.seen_keyMarksTo block
  have hkept := hseen.kept
  unfold Table.activeKey
  cases hactive : ((t.zipIdx.filter fun p => decide (p.1.block ≤ block)).foldl
      (Keys.State.behind t) {}).active with
  | some key =>
      rw [hactive] at hkept
      exact congrArg some hkept
  | none =>
      obtain ⟨r, hr, hsource, hle⟩ := hpitch
      obtain ⟨i, hi⟩ := List.mem_iff_getElem?.1 hr
      have hmem : (r, i) ∈ t.zipIdx.filter fun p => decide (p.1.block ≤ block) :=
        List.mem_filter.2 ⟨List.mem_zipIdx_iff_getElem?.2 hi, decide_eq_true hle⟩
      exact absurd hsource ((hseen.untouched hactive).2 _ hmem)

-- ====================================================== announcements

/-- Whether a signature is announced at a place. -/
def KeyMark.goesTo (m : KeyMark) (place : Nat) : Bool :=
  m.effect == .atNote place || m.effect == .atBarline place

theorem goesTo_eq_true {m : KeyMark} {place : Nat} :
    m.goesTo place = true ↔ m.effect = .atNote place ∨ m.effect = .atBarline place := by
  simp [KeyMark.goesTo]

theorem goesTo_of_not_changesKey {m : KeyMark} (h : m.effect.changesKey = false) (place : Nat) :
    m.goesTo place = false := by
  apply Bool.eq_false_iff.2
  intro hgoes
  rcases goesTo_eq_true.1 hgoes with heffect | heffect
  · rw [heffect] at h
    cases h
  · rw [heffect] at h
    cases h

/-- The row that a signature goes to: a lyric row of its block that takes time or is a barline. -/
theorem row_of_goesTo {t : Table} {m : KeyMark} (hm : m ∈ t.keyMarks) {place : Nat}
    (h : m.goesTo place = true) :
    ∃ r, (r, place) ∈ t.zipIdx ∧ r.source = .lyric ∧ r.block = m.block
      ∧ (m.effect = .atBarline place → r.isRhythm = false)
      ∧ (m.effect = .atNote place → r.isRhythm = true) := by
  have hsound := sound_of_mem_keyMarks hm
  rcases goesTo_eq_true.1 h with hnote | hbar
  · obtain ⟨before, r, after, hsplit, hrhythm, hblock, -⟩ := firstNote?_spec (hsound.atNote place hnote)
    refine ⟨r, ?_, source_of_isSpoken (isSpoken_of_isRhythm hrhythm), hblock, fun hbar => ?_,
      fun _ => hrhythm⟩
    · rw [hsplit]
      exact List.mem_append_right _ List.mem_cons_self
    · rw [hnote] at hbar
      cases hbar
  · obtain ⟨⟨r, place'⟩, hmem, rfl⟩ := List.mem_map.1 (hsound.atBarline place hbar)
    obtain ⟨hmem, hr⟩ := List.mem_filter.1 hmem
    simp only [Bool.and_eq_true, beq_iff_eq] at hr
    obtain ⟨hbarline, hblock⟩ := hr
    have hspoken : r.isSpoken = true := by rw [Row.isSpoken, hbarline, Bool.or_true]
    refine ⟨r, hmem, source_of_isSpoken hspoken, hblock, fun _ => ?_, fun hnote => ?_⟩
    · apply Bool.eq_false_iff.2
      intro hrhythm
      rw [isLyricBarline_of_isRhythm hrhythm] at hbarline
      cases hbarline
    · rw [hbar] at hnote
      cases hnote

/-- The signatures of earlier blocks go to earlier places. -/
theorem Table.Measured.place_lt {t : Table} (h : t.Measured) {p q : PlacedRow} (hp : p ∈ t.zipIdx)
    (hq : q ∈ t.zipIdx) (hsource : p.1.source = .lyric) (hsource' : q.1.source = .lyric)
    (hlt : p.1.block < q.1.block) : p.2 < q.2 := by
  apply Decidable.byContradiction
  intro hnot
  rcases Nat.lt_or_eq_of_le (Nat.le_of_not_lt hnot) with hbehind | heq
  · obtain ⟨before, after, hsplit⟩ := List.append_of_mem hp
    have hmem : q ∈ before :=
      mem_before_of_lt (hsplit ▸ pairwise_place t) (hsplit ▸ hq) hbehind
    have hpair := pairwise_zipIdx h.ordered
    rw [hsplit] at hpair
    have hforward := (List.pairwise_append.1 hpair).2.2 q hmem p List.mem_cons_self
    have hle := hforward.1 (by rw [hsource']; decide) (by rw [hsource]; decide)
    omega
  · obtain ⟨r, place⟩ := p
    obtain ⟨r', place'⟩ := q
    simp only at heq hlt
    subst heq
    rw [eq_of_mem_zipIdx hp hq] at hlt
    exact Int.lt_irrefl _ hlt

/-- The key that signatures write on a row is that of the last one that goes there. -/
theorem key_foldl_write {ms : List KeyMark} {index : Nat} (r : Row) (h : ∀ m ∈ ms, m.index ≠ index) :
    (ms.foldl (Keys.write index) r).key
      = ((ms.reverse.find? fun m => m.goesTo index).map (·.key)).or r.key := by
  induction ms generalizing r with
  | nil => rfl
  | cons m ms ih =>
      obtain ⟨hm, hms⟩ := List.forall_mem_cons.1 h
      have hwrite : (Keys.write index r m).key = if m.goesTo index then some m.key else r.key := by
        by_cases hgoes : m.goesTo index = true
        · rw [if_pos hgoes]
          rcases goesTo_eq_true.1 hgoes with heffect | heffect
          · simp only [Keys.write, heffect, if_neg hm, if_true]
          · simp only [Keys.write, heffect, if_neg hm, if_true]
        · rw [if_neg hgoes, write_of_miss r hm]
          · exact fun hnote => hgoes (goesTo_eq_true.2 (Or.inl hnote))
          · exact fun hbar => hgoes (goesTo_eq_true.2 (Or.inr hbar))
      rw [List.foldl_cons, ih _ hms, hwrite, List.reverse_cons, List.find?_append]
      cases hlater : ms.reverse.find? fun m => m.goesTo index with
      | some later => rfl
      | none => cases hgoes : m.goesTo index <;> simp [hgoes]

theorem key_annotate {t : Table} (hplain : t.Keyless) {p : PlacedRow} (hp : p ∈ t.zipIdx)
    (hlyric : p.1.source = .lyric) :
    (Keys.annotate t.keyMarks p.1 p.2).key
      = (t.keyMarks.reverse.find? fun m => m.goesTo p.2).map (·.key) := by
  have hkey := hplain.key p.1 (List.fst_mem_of_mem_zipIdx hp) hlyric
  have hpitch : p.1.source ≠ .pitch := by
    rw [hlyric]
    decide
  unfold Keys.annotate
  rw [key_foldl_write _ ((keyMarks_spec hp).2.1 hpitch)]
  have hnone : (if Keys.isLyricBarline p.1 then { p.1 with draftText := some Keys.bar } else p.1).key
      = none := by
    split <;> exact hkey
  rw [hnone, Option.or_none]

/-- The lyric rows with their keys. -/
theorem lyricsTo_withKeys (t : Table) (block : Int) :
    t.withKeys.lyricsTo block
      = (t.zipIdx.filter fun p => decide (p.1.source = .lyric ∧ p.1.block ≤ block)).map fun p =>
          Keys.annotate t.keyMarks p.1 p.2 := by
  have hkept : ∀ p : PlacedRow, (Keys.annotate t.keyMarks p.1 p.2).source = p.1.source
      ∧ (Keys.annotate t.keyMarks p.1 p.2).block = p.1.block := by
    intro p
    have hsource := congrArg Row.source (sung_annotate t.keyMarks p.1 p.2)
    have hblock := congrArg Row.block (sung_annotate t.keyMarks p.1 p.2)
    exact ⟨hsource, hblock⟩
  unfold Table.lyricsTo
  simp only [Table.withKeys, Table.setField]
  rw [List.map_map, List.filter_map]
  have hfilter : t.zipIdx.filter ((fun r : Row => decide (r.source = .lyric ∧ r.block ≤ block)) ∘
      ((fun r : Row => if r.source = .header ∧ r.raw = "K" then
          { r with draftText := some (Keys.headingKey t.keyMarks) } else r) ∘
        fun p : PlacedRow => Keys.annotate t.keyMarks p.1 p.2))
      = t.zipIdx.filter fun p => decide (p.1.source = .lyric ∧ p.1.block ≤ block) := by
    refine List.filter_congr fun p _ => ?_
    obtain ⟨hsource, hblock⟩ := hkept p
    simp only [Function.comp_apply]
    split
    · simp only [hsource, hblock]
    · simp only [hsource, hblock]
  rw [hfilter]
  refine List.map_congr_left fun p hp => ?_
  have hlyric := (of_decide_eq_true (List.mem_filter.1 hp).2).1
  simp only [Function.comp_apply]
  refine if_neg fun hheader => ?_
  rw [(hkept p).1, hlyric] at hheader
  cases hheader.1

/-- The replay goes by the last signature that goes to a place. -/
theorem replayedKey_withKeys {t : Table} (hplain : t.Keyless) (block : Int) :
    t.withKeys.replayedKey block
      = (t.zipIdx.filter fun p => decide (p.1.source = .lyric ∧ p.1.block ≤ block)).foldl
          (fun key p => ((t.keyMarks.reverse.find? fun m => m.goesTo p.2).map (·.key)).getD key)
          ((t.withKeys.field? "K").getD "") := by
  unfold Table.replayedKey
  rw [lyricsTo_withKeys, List.foldl_map]
  generalize (t.withKeys.field? "K").getD "" = start
  have hrows : ∀ p ∈ t.zipIdx.filter fun p => decide (p.1.source = .lyric ∧ p.1.block ≤ block),
      (Keys.annotate t.keyMarks p.1 p.2).key
        = (t.keyMarks.reverse.find? fun m => m.goesTo p.2).map (·.key) := by
    intro p hp
    obtain ⟨hp, hrow⟩ := List.mem_filter.1 hp
    exact key_annotate hplain hp (of_decide_eq_true hrow).1
  generalize t.zipIdx.filter (fun p => decide (p.1.source = .lyric ∧ p.1.block ≤ block)) = rows at hrows ⊢
  induction rows generalizing start with
  | nil => rfl
  | cons p rows ih =>
      obtain ⟨hp, hrows⟩ := List.forall_mem_cons.1 hrows
      rw [List.foldl_cons, List.foldl_cons, hp, ih _ hrows]

-- ============================================== the order of the places

namespace Table.Measured

variable {t : Table} {block : Int}

theorem mem_keyMarks_of_mem_keyMarksTo {m : KeyMark} (hm : m ∈ t.keyMarksTo block) :
    m ∈ t.keyMarks ∧ m.block ≤ block := by
  obtain ⟨hm, hle⟩ := List.mem_filter.1 hm
  exact ⟨hm, of_decide_eq_true hle⟩

/-- No signature of a later block goes to a row of the blocks up to one. -/
theorem find?_goesTo (h : t.Measured) {q : PlacedRow} (hq : q ∈ t.zipIdx) (hle : q.1.block ≤ block) :
    t.keyMarks.reverse.find? (fun m => m.goesTo q.2)
      = (t.keyMarksTo block).reverse.find? fun m => m.goesTo q.2 := by
  obtain ⟨-, late, hmarks, hlate⟩ := h.keyMarks_eq block
  have hnone : late.reverse.find? (fun m => m.goesTo q.2) = none := by
    refine List.find?_eq_none.2 fun m hm hgoes => ?_
    have hm := List.mem_reverse.1 hm
    have hmem : m ∈ t.keyMarks := by
      rw [hmarks]
      exact List.mem_append_right _ hm
    obtain ⟨r, hr, -, hblock, -⟩ := row_of_goesTo hmem hgoes
    have hlt := hlate m hm
    rw [← hblock, eq_of_mem_zipIdx hr hq] at hlt
    omega
  rw [hmarks, List.reverse_append, List.find?_append, hnone, Option.none_or]

/-- The reader is left in the key of the last place that a signature goes to. -/
theorem replayedKey_of_last (h : t.Measured) (hplain : t.Keyless) {m m' : KeyMark} {place : Nat}
    (hm : m ∈ t.keyMarksTo block) (hplace : m.goesTo place = true)
    (hlast : ∀ other ∈ t.keyMarksTo block, ∀ j, other.goesTo j = true → j ≤ place)
    (hfind : (t.keyMarksTo block).reverse.find? (fun m => m.goesTo place) = some m') :
    t.withKeys.replayedKey block = m'.key := by
  obtain ⟨hmem, hle⟩ := mem_keyMarks_of_mem_keyMarksTo hm
  obtain ⟨r, hr, hlyric, hblock, -⟩ := row_of_goesTo hmem hplace
  have hbefore : r.block ≤ block := Int.le_trans (Int.le_of_eq hblock) hle
  have hrow : (r, place) ∈ t.zipIdx.filter fun p => decide (p.1.source = .lyric ∧ p.1.block ≤ block) :=
    List.mem_filter.2 ⟨hr, decide_eq_true ⟨hlyric, hbefore⟩⟩
  rw [replayedKey_withKeys hplain]
  refine foldl_getD_of_place ((pairwise_place t).filter _) hrow ?_ (fun q hq hlt => ?_) _
  · rw [h.find?_goesTo hr hbefore, hfind]
    rfl
  · obtain ⟨hq, hqle⟩ := List.mem_filter.1 hq
    rw [h.find?_goesTo hq (of_decide_eq_true hqle).2]
    cases hother : (t.keyMarksTo block).reverse.find? fun m => m.goesTo q.2 with
    | none => rfl
    | some other =>
        have hle := hlast other (List.mem_reverse.1 (List.mem_of_find?_eq_some hother)) q.2
          (List.find?_some (p := fun m : KeyMark => m.goesTo q.2) hother)
        omega

/-- Signatures of earlier blocks go to earlier places. -/
theorem goesTo_lt (h : t.Measured) {m m' : KeyMark} (hm : m ∈ t.keyMarks) (hm' : m' ∈ t.keyMarks)
    {i j : Nat} (hi : m.goesTo i = true) (hj : m'.goesTo j = true) (hlt : m.block < m'.block) :
    i < j := by
  obtain ⟨r, hr, hlyric, hblock, -⟩ := row_of_goesTo hm hi
  obtain ⟨r', hr', hlyric', hblock', -⟩ := row_of_goesTo hm' hj
  exact h.place_lt hr hr' hlyric hlyric' (by rw [hblock, hblock']; exact hlt)

end Table.Measured

theorem lastChange?_eq_some {ms : List KeyMark} {m : KeyMark} (h : KeyMark.lastChange? ms = some m) :
    m.effect.changesKey = true ∧ ∃ before after, ms = before ++ m :: after
      ∧ ∀ m' ∈ after, m'.effect.changesKey = false := by
  obtain ⟨hm, later, earlier, hsplit, hlater⟩ := List.find?_eq_some_iff_append.1 h
  refine ⟨hm, earlier.reverse, later.reverse, ?_, fun m' hm' => ?_⟩
  · rw [← List.reverse_reverse ms, hsplit]
    simp
  · simpa using hlater m' (List.mem_reverse.1 hm')

/-- Behind the last change of key, no signature goes anywhere. -/
theorem goesTo_lastChange {m m' : KeyMark} {before after : List KeyMark}
    (hafter : ∀ m' ∈ after, m'.effect.changesKey = false) (hm' : m' ∈ before ++ m :: after)
    {place : Nat} (hgoes : m'.goesTo place = true) : m' = m ∨ m' ∈ before := by
  rcases List.mem_append.1 hm' with hm' | hm'
  · exact Or.inr hm'
  · rcases List.mem_cons.1 hm' with rfl | hm'
    · exact Or.inl rfl
    · rw [goesTo_of_not_changesKey (hafter m' hm') place] at hgoes
      cases hgoes

/-- A signature that changes the key and is not announced is the heading. -/
theorem heading_of_changesKey {m : KeyMark} (h : m.effect.changesKey = true)
    (hquiet : ∀ place, m.goesTo place = false) : m.effect = .heading := by
  cases heffect : m.effect with
  | heading => rfl
  | atNote place =>
      have hgoes := hquiet place
      rw [goesTo_eq_true.2 (Or.inl heffect)] at hgoes
      cases hgoes
  | atBarline place =>
      have hgoes := hquiet place
      rw [goesTo_eq_true.2 (Or.inr heffect)] at hgoes
      cases hgoes
  | repeated =>
      rw [heffect] at h
      cases h
  | noNotes =>
      rw [heffect] at h
      cases h
  | noBarline =>
      rw [heffect] at h
      cases h

/-- As long as the last change of key is not announced, nothing is, and it is that of the heading. -/
theorem quiet_of_lastChange {ms : List KeyMark} (hms : ms.Pairwise KeyMark.Before)
    (hlast : ∀ m, KeyMark.lastChange? ms = some m → ∀ place, m.goesTo place = false) :
    (∀ m ∈ ms, ∀ place, m.goesTo place = false)
      ∧ Keys.headingKey ms = ((KeyMark.lastChange? ms).map (·.key)).getD defaultKey := by
  unfold Keys.headingKey
  cases hchange : KeyMark.lastChange? ms with
  | none =>
      have hkept : ∀ m ∈ ms, m.effect.changesKey = false := by
        intro m hm
        have hnot := List.find?_eq_none.1 hchange m (List.mem_reverse.2 hm)
        simpa using hnot
      have hnone : ms.find? (fun m => m.effect == .heading) = none := by
        refine List.find?_eq_none.2 fun m hm hyes => ?_
        have hno := hkept m hm
        rw [eq_of_beq hyes] at hno
        cases hno
      rw [hnone]
      exact ⟨fun m hm place => goesTo_of_not_changesKey (hkept m hm) place, rfl⟩
  | some m =>
      obtain ⟨hchanges, before, after, rfl, hafter⟩ := lastChange?_eq_some hchange
      have hheading := heading_of_changesKey hchanges (hlast m hchange)
      -- the heading is the first signature of all
      have hbefore : before = [] := by
        apply List.eq_nil_iff_forall_not_mem.2
        intro m' hm'
        exact ((List.pairwise_append.1 hms).2.2 m' hm' m List.mem_cons_self).heading hheading
      subst hbefore
      rw [List.nil_append, List.find?_cons_of_pos (by rw [hheading]; rfl)]
      refine ⟨fun m' hm' place => ?_, rfl⟩
      rcases List.mem_cons.1 hm' with rfl | hm'
      · exact hlast m' hchange place
      · exact goesTo_of_not_changesKey (hafter m' hm') place

/-- A signature behind which none goes to its place is the last that goes there. -/
theorem find?_goesTo_last {m : KeyMark} {before after : List KeyMark} {place : Nat}
    (hm : m.goesTo place = true) (hafter : ∀ m' ∈ after, m'.goesTo place = false) :
    (before ++ m :: after).reverse.find? (fun m => m.goesTo place) = some m := by
  have hnone : after.reverse.find? (fun m => m.goesTo place) = none := by
    refine List.find?_eq_none.2 fun m' hm' hgoes => ?_
    rw [hafter m' (List.mem_reverse.1 hm')] at hgoes
    cases hgoes
  rw [List.reverse_append, List.reverse_cons, List.find?_append, List.find?_append, hnone,
    Option.none_or, List.find?_cons_of_pos (p := fun m : KeyMark => m.goesTo place) hm]
  rfl

/-- The last change of key is the last signature that goes to its place. -/
theorem find?_lastChange {m : KeyMark} {before after : List KeyMark}
    (hafter : ∀ m' ∈ after, m'.effect.changesKey = false) {place : Nat} (hm : m.goesTo place = true) :
    (before ++ m :: after).reverse.find? (fun m => m.goesTo place) = some m :=
  find?_goesTo_last hm fun m' hm' => goesTo_of_not_changesKey (hafter m' hm') place

/-- Of the signatures of a table, one goes to the first note of a block. -/
theorem Table.Measured.eq_of_atNote {t : Table} (h : t.Measured) {m m' : KeyMark}
    (hm : m ∈ t.keyMarks) (hm' : m' ∈ t.keyMarks) {place : Nat} (hnote : m.effect = .atNote place)
    (hnote' : m'.effect = .atNote place) : m = m' := by
  obtain ⟨i, hi, rfl⟩ := List.mem_iff_getElem.1 hm
  obtain ⟨j, hj, rfl⟩ := List.mem_iff_getElem.1 hm'
  have hpair := List.pairwise_iff_getElem.1 h.pairwise_atNote
  rcases Nat.lt_trichotomy i j with hlt | rfl | hlt
  · exact absurd hnote' (hpair i j hi hj hlt place hnote)
  · rfl
  · exact absurd hnote (hpair j i hj hi hlt place hnote')

-- ============================================== the key behind a block

namespace Table.Measured

variable {t : Table} {block : Int} {m : KeyMark} {before after : List KeyMark}

/-- Without a change of key the reader stays in the key of the heading. -/
theorem replayedKey_of_quiet (h : t.Measured) (hplain : t.Keyless)
    (hquiet : ∀ m ∈ t.keyMarksTo block, ∀ place, m.goesTo place = false) :
    t.withKeys.replayedKey block = (t.withKeys.field? "K").getD "" := by
  rw [replayedKey_withKeys hplain]
  refine foldl_getD_of_none (fun q hq => ?_) _
  obtain ⟨hq, hrow⟩ := List.mem_filter.1 hq
  rw [h.find?_goesTo hq (of_decide_eq_true hrow).2, Option.map_eq_none_iff]
  refine List.find?_eq_none.2 fun m hm => ?_
  rw [hquiet m (List.mem_reverse.1 hm) q.2]
  decide

theorem before_of_mem (h : t.Measured) (hsplit : t.keyMarksTo block = before ++ m :: after) :
    ∀ m' ∈ before, m'.Before m := by
  have hpair := (h.seen_keyMarksTo block).before
  rw [hsplit] at hpair
  intro m' hm'
  exact (List.pairwise_append.1 hpair).2.2 m' hm' m List.mem_cons_self

/-- An opening signature that is the last change of key goes to the last place of all. -/
theorem replayedKey_of_atNote (h : t.Measured) (hplain : t.Keyless) {note : Nat}
    (hsplit : t.keyMarksTo block = before ++ m :: after)
    (hafter : ∀ m' ∈ after, m'.effect.changesKey = false) (hnote : m.effect = .atNote note) :
    t.withKeys.replayedKey block = m.key := by
  have hm : m ∈ t.keyMarksTo block := by
    rw [hsplit]
    exact List.mem_append_right _ List.mem_cons_self
  have hplace : m.goesTo note = true := goesTo_eq_true.2 (Or.inl hnote)
  refine h.replayedKey_of_last hplain hm hplace (fun other hother j hj => ?_)
    (by rw [hsplit]; exact find?_lastChange hafter hplace)
  rcases goesTo_lastChange hafter (hsplit ▸ hother) hj with rfl | hbefore
  · -- the signature itself goes nowhere else
    rcases goesTo_eq_true.1 hj with hj | hj
    · exact Nat.le_of_eq (KeyEffect.atNote.inj (hj.symm.trans hnote))
    · rw [hnote] at hj
      cases hj
  · have hearlier := h.before_of_mem hsplit other hbefore
    have hne : other.block ≠ m.block := fun heq => hearlier.opening heq note hnote
    have hlt : other.block < m.block := by
      have hle := hearlier.block
      omega
    exact Nat.le_of_lt (h.goesTo_lt (mem_keyMarks_of_mem_keyMarksTo hother).1
      (mem_keyMarks_of_mem_keyMarksTo hm).1 hj hplace hlt)

/-- Where a signature at a barline is the last change of key, other signatures go to no later place
but the one that overtakes it. -/
theorem place_of_atBarline (h : t.Measured) {bar : Nat}
    (hsplit : t.keyMarksTo block = before ++ m :: after)
    (hafter : ∀ m' ∈ after, m'.effect.changesKey = false) (hbar : m.effect = .atBarline bar)
    {other : KeyMark} (hother : other ∈ t.keyMarksTo block) {j : Nat} (hj : other.goesTo j = true) :
    j ≤ bar ∨ other.effect = .atNote j ∧ other.overtakes m = true := by
  have hm : m ∈ t.keyMarksTo block := by
    rw [hsplit]
    exact List.mem_append_right _ List.mem_cons_self
  rcases goesTo_lastChange hafter (hsplit ▸ hother) hj with rfl | hbefore
  · rcases goesTo_eq_true.1 hj with hj | hj
    · rw [hbar] at hj
      cases hj
    · exact Or.inl (Nat.le_of_eq (KeyEffect.atBarline.inj (hj.symm.trans hbar)))
  · have hearlier := h.before_of_mem hsplit other hbefore
    by_cases heq : other.block = m.block
    · rcases goesTo_eq_true.1 hj with hnote | hj
      · by_cases hle : j ≤ bar
        · exact Or.inl hle
        · exact Or.inr ⟨hnote, overtakes_eq_true.2 ⟨j, bar, hnote, hbar, heq, by omega⟩⟩
      · exact Or.inl (hearlier.barline heq j bar hj hbar)
    · have hlt : other.block < m.block := by
        have hle := hearlier.block
        omega
      exact Or.inl (Nat.le_of_lt (h.goesTo_lt (mem_keyMarks_of_mem_keyMarksTo hother).1
        (mem_keyMarks_of_mem_keyMarksTo hm).1 hj (goesTo_eq_true.2 (Or.inr hbar)) hlt))

/-- A signature at a barline that is the last change of key and not overtaken goes to the last place
of all. -/
theorem replayedKey_of_atBarline (h : t.Measured) (hplain : t.Keyless) {bar : Nat}
    (hsplit : t.keyMarksTo block = before ++ m :: after)
    (hafter : ∀ m' ∈ after, m'.effect.changesKey = false) (hbar : m.effect = .atBarline bar)
    (hfree : ∀ lead ∈ t.keyMarksTo block, lead.overtakes m = false) :
    t.withKeys.replayedKey block = m.key := by
  have hm : m ∈ t.keyMarksTo block := by
    rw [hsplit]
    exact List.mem_append_right _ List.mem_cons_self
  have hplace : m.goesTo bar = true := goesTo_eq_true.2 (Or.inr hbar)
  refine h.replayedKey_of_last hplain hm hplace (fun other hother j hj => ?_)
    (by rw [hsplit]; exact find?_lastChange hafter hplace)
  rcases h.place_of_atBarline hsplit hafter hbar hother hj with hle | ⟨-, hover⟩
  · exact hle
  · rw [hfree other hother] at hover
    cases hover

/-- An overtaken signature leaves the reader in the key of the one that overtakes it. -/
theorem replayedKey_of_overtakes (h : t.Measured) (hplain : t.Keyless) {lead : KeyMark}
    (hsplit : t.keyMarksTo block = before ++ m :: after)
    (hafter : ∀ m' ∈ after, m'.effect.changesKey = false)
    (hlead : lead ∈ t.keyMarksTo block) (hover : lead.overtakes m = true) :
    t.withKeys.replayedKey block = lead.key := by
  obtain ⟨note, bar, hnote, hbar, hblock, hlt⟩ := overtakes_eq_true.1 hover
  have hleadMarks := (mem_keyMarks_of_mem_keyMarksTo hlead).1
  have hplace : lead.goesTo note = true := goesTo_eq_true.2 (Or.inl hnote)
  -- the only signature that goes to the first note is the opening one
  have hfind : (t.keyMarksTo block).reverse.find? (fun m => m.goesTo note) = some lead := by
    cases hother : (t.keyMarksTo block).reverse.find? fun m => m.goesTo note with
    | none =>
        have hnot := List.find?_eq_none.1 hother lead (List.mem_reverse.2 hlead)
        exact absurd hplace hnot
    | some other =>
        have hmem := (mem_keyMarks_of_mem_keyMarksTo
          (List.mem_reverse.1 (List.mem_of_find?_eq_some hother))).1
        have hgoes : other.goesTo note = true :=
          List.find?_some (p := fun m : KeyMark => m.goesTo note) hother
        rcases goesTo_eq_true.1 hgoes with hnote' | hbar'
        · rw [h.eq_of_atNote hmem hleadMarks hnote' hnote]
        · obtain ⟨r, hr, -, -, hsilent, -⟩ := row_of_goesTo hmem hgoes
          obtain ⟨r', hr', -, -, -, htimed⟩ := row_of_goesTo hleadMarks hplace
          have hrhythm := htimed hnote
          rw [← eq_of_mem_zipIdx hr hr', hsilent hbar'] at hrhythm
          cases hrhythm
  refine h.replayedKey_of_last hplain hlead hplace (fun other hother j hj => ?_) hfind
  rcases h.place_of_atBarline hsplit hafter hbar hother hj with hle | ⟨hnote', hover'⟩
  · omega
  · -- both are announced at the first note of one block
    obtain ⟨note', -, heq, -, hblock', -⟩ := overtakes_eq_true.1 hover'
    have hfirst := (sound_of_mem_keyMarks hleadMarks).atNote note hnote
    have hfirst' := (sound_of_mem_keyMarks (mem_keyMarks_of_mem_keyMarksTo hother).1).atNote j hnote'
    rw [hblock', ← hblock, hfirst] at hfirst'
    exact Nat.le_of_eq (Option.some.inj hfirst').symm

/-- Behind a pitch row only signatures read before it can be the heading. -/
theorem headingKey_eq (h : t.Measured) (hpitch : ∃ r ∈ t, r.source = .pitch ∧ r.block ≤ block) :
    Keys.headingKey t.keyMarks = Keys.headingKey (t.keyMarksTo block) := by
  obtain ⟨-, late, hmarks, hlate⟩ := h.keyMarks_eq block
  have hnone : late.find? (fun m => m.effect == .heading) = none := by
    refine List.find?_eq_none.2 fun m hm hheading => ?_
    have hmem : m ∈ t.keyMarks := by
      rw [hmarks]
      exact List.mem_append_right _ hm
    obtain ⟨r, hr, hsource, hle⟩ := hpitch
    obtain ⟨i, hi⟩ := List.mem_iff_getElem?.1 hr
    have hfirst := h.seen_keyMarks.heading m hmem (eq_of_beq hheading) (r, i)
      (List.mem_zipIdx_iff_getElem?.2 hi) hsource
    have hlt := hlate m hm
    simp only at hfirst
    omega
  unfold Keys.headingKey
  rw [hmarks, List.find?_append, hnone, Option.or_none]

/-- Where the reader is left behind a block: in the key of the last signature that was not dropped,
unless it is overtaken. -/
theorem replayedKey_eq (h : t.Measured) (hplain : t.Keyless)
    (hfield : t.withKeys.field? "K" = some (Keys.headingKey t.keyMarks))
    (hpitch : ∃ r ∈ t, r.source = .pitch ∧ r.block ≤ block) :
    t.withKeys.replayedKey block
      = ((t.overtaking? block).map (·.key)).getD (KeyMark.lastKey (t.keyMarksTo block)) := by
  have hseen := h.seen_keyMarksTo block
  rw [hseen.kept.symm.trans hseen.changed]
  unfold Table.overtaking?
  by_cases hannounced : ∃ m place, KeyMark.lastChange? (t.keyMarksTo block) = some m
      ∧ m.goesTo place = true
  · obtain ⟨m, place, hlast, hgoes⟩ := hannounced
    obtain ⟨-, before, after, hsplit, hafter⟩ := lastChange?_eq_some hlast
    rw [hlast, Option.bind_some, Option.map_some, Option.getD_some]
    cases hlead : (t.keyMarksTo block).find? fun lead => lead.overtakes m with
    | some lead =>
        exact h.replayedKey_of_overtakes hplain hsplit hafter (List.mem_of_find?_eq_some hlead)
          (List.find?_some (p := fun lead : KeyMark => lead.overtakes m) hlead)
    | none =>
        have hfree : ∀ lead ∈ t.keyMarksTo block, lead.overtakes m = false := by
          intro lead hmem
          have hnot := List.find?_eq_none.1 hlead lead hmem
          simpa using hnot
        show t.withKeys.replayedKey block = m.key
        rcases goesTo_eq_true.1 hgoes with hnote | hbar
        · exact h.replayedKey_of_atNote hplain hsplit hafter hnote
        · exact h.replayedKey_of_atBarline hplain hsplit hafter hbar hfree
  · have hlast : ∀ m, KeyMark.lastChange? (t.keyMarksTo block) = some m →
        ∀ place, m.goesTo place = false := fun m hm place =>
      Bool.eq_false_iff.2 fun hgoes => hannounced ⟨m, place, hm, hgoes⟩
    obtain ⟨hquiet, hheading⟩ := quiet_of_lastChange hseen.before hlast
    -- only what is announced at a barline is overtaken
    have hfree : ((KeyMark.lastChange? (t.keyMarksTo block)).bind fun m =>
        (t.keyMarksTo block).find? fun lead => lead.overtakes m) = none := by
      refine Option.bind_eq_none_iff.2 fun m hm => List.find?_eq_none.2 fun lead _ hover => ?_
      obtain ⟨-, bar, -, hbar, -⟩ := overtakes_eq_true.1 hover
      have hgoes := hlast m hm bar
      rw [goesTo_eq_true.2 (Or.inr hbar)] at hgoes
      cases hgoes
    rw [h.replayedKey_of_quiet hplain hquiet, hfield, h.headingKey_eq hpitch, hheading, hfree]
    rfl

end Table.Measured

-- =========================================================== readers

/-- A row that takes time gets no draft from the signatures. -/
theorem Table.Measured.draftText_withKeys {t : Table} (h : t.Measured) (hplain : t.Keyless) {r : Row}
    (hr : r ∈ t.withKeys) (hrhythm : r.isRhythm = true) : r.draftText = none := by
  have hsource := source_of_isSpoken (isSpoken_of_isRhythm hrhythm)
  obtain ⟨p, hp, rfl⟩ := List.mem_map.1 (mem_of_mem_setField hr (by rw [hsource]; decide))
  have hkept := sung_annotate t.keyMarks p.1 p.2
  have hlyric : p.1.source = .lyric := (congrArg Row.source hkept).symm.trans hsource
  have htimed : p.1.isRhythm = true := (congrArg Row.isRhythm hkept).symm.trans hrhythm
  have hdraft := hplain.draft p.1 (List.fst_mem_of_mem_zipIdx hp) hlyric
  rcases h.annotate_note hp htimed with hsame | ⟨m, -, -, hread⟩
  · rw [hsame]
    exact hdraft
  · rw [hread]
    exact hdraft

theorem key?_keyFields (r : Row) : r.keyFields.filterMap Token.key? = r.key.toList := by
  unfold Row.keyFields
  cases r.key with
  | none => rfl
  | some name =>
      show [String.ofList name.toList] = [name]
      rw [String.ofList_toList]

theorem key?_changes (previous : Option Row) (r : Row) :
    (r.changes previous).filterMap Token.key? = [] := by
  cases previous with
  | none => rfl
  | some q =>
      unfold Row.changes
      rw [List.filterMap_append, List.append_eq_nil_iff]
      constructor
      · split
        · rfl
        · rfl
      · split
        · rfl
        · rfl

/-- The texts of a row name the key that it brings, and no other. -/
theorem Table.Prepared.writtenKeys_eq {heading : Rat} {meter : String} {t : Table}
    (h : t.Prepared heading meter) {r : Row} (hr : r ∈ t.withKeys) (hsource : r.source = .lyric) :
    r.writtenKeys = r.key.toList := by
  unfold Row.writtenKeys
  cases hspoken : r.isSpoken with
  | false =>
      obtain ⟨hdirective, hkey, hdraft⟩ := withKeys_unheard h.keyless hr hsource hspoken
      rw [hdirective, hkey, hdraft, Option.getD_none, Reads.empty.lexed_eq]
      rfl
  | true =>
      rcases Bool.or_eq_true_iff.1 hspoken with hrhythm | hbar
      · have hled : ∀ r ∈ t.withKeys, r.isRhythm = true → ∃ previous, Row.Led previous r :=
          (withKeys_linked h.measured h.metered h.keyless).forall_mem fun previous r hr => ⟨previous, hr⟩
        obtain ⟨previous, hr'⟩ := hled r hr hrhythm
        rw [hr'.directive.lexed_eq, h.measured.draftText_withKeys h.keyless hr hrhythm, Option.getD_none,
          Reads.empty.lexed_eq, List.append_nil, List.filterMap_append, key?_keyFields, key?_changes,
          List.append_nil]
      · have hbarred := withKeys_barred h.keyless hr hbar
        rw [hbarred.directive, hbarred.draft.lexed_eq, Reads.empty.lexed_eq]
        exact key?_keyFields r

/-- A reader who sees nothing but the texts is left in the same key. -/
theorem Table.Prepared.readKey_eq {heading : Rat} {meter : String} {t : Table}
    (h : t.Prepared heading meter) (block : Int) :
    t.withKeys.readKey block = t.withKeys.replayedKey block := by
  unfold Table.readKey Table.replayedKey
  have hrows : ∀ r ∈ t.withKeys.lyricsTo block, r.writtenKeys = r.key.toList := by
    intro r hr
    obtain ⟨hr, hrow⟩ := List.mem_filter.1 hr
    exact h.writtenKeys_eq hr (of_decide_eq_true hrow).1
  generalize (t.withKeys.field? "K").getD "" = start
  generalize t.withKeys.lyricsTo block = rows at hrows
  induction rows generalizing start with
  | nil => rfl
  | cons r rows ih =>
      obtain ⟨hr, hrows⟩ := List.forall_mem_cons.1 hrows
      rw [List.flatMap_cons, hr, List.foldl_append, List.foldl_cons]
      cases r.key with
      | none => exact ih start hrows
      | some key => exact ih key hrows

-- ============================================================= scores

/-- A block that can be written has a pitch row. -/
theorem Block.exists_pitch {b : Block} (h : b.pitches.WellFormed) (number : Int) :
    ∃ r ∈ b.rows number, r.source = .pitch ∧ r.block = number := by
  obtain ⟨-, hopening⟩ := h
  unfold Block.rows
  cases ho : b.pitches.opening with
  | some o =>
      refine ⟨keyRow number b.firstMeasure o.text, ?_, rfl, rfl⟩
      apply List.mem_append_left
      exact List.mem_append_right _ List.mem_cons_self
  | none =>
      rw [ho] at hopening
      obtain ⟨item, hitem, -⟩ := hopening
      cases hitems : b.pitches.items with
      | nil =>
          rw [hitems] at hitem
          cases hitem
      | cons item rest =>
          obtain ⟨r, hr⟩ : ∃ r, r ∈ pitchRows number b.firstMeasure (item :: rest) := by
            cases item with
            | barline => exact ⟨_, List.mem_cons_self⟩
            | key k => exact ⟨_, List.mem_cons_self⟩
            | pitch p => exact ⟨_, List.mem_cons_self⟩
          exact ⟨r, List.mem_append_right _ hr, mem_pitchRows hr⟩

/-- Every block of a text has a pitch row. -/
theorem exists_pitch_of_parse {text : String} {s : Score} (h : Score.parse text = .ok s)
    {block : Nat} (hpos : 1 ≤ block) (hle : block ≤ s.blocks.length) :
    ∃ r ∈ s.layout, r.source = .pitch ∧ r.block = block := by
  have hlt : block - 1 < s.blocks.length := by omega
  have hmem : (s.blocks[block - 1], block) ∈ s.blocks.zipIdx 1 := by
    rw [List.mem_zipIdx_iff_le_and_getElem?_sub]
    exact ⟨hpos, List.getElem?_eq_getElem hlt⟩
  obtain ⟨-, hblocks⟩ := Reader.wellFormed_of_parse h
  obtain ⟨-, -, hpitches, -⟩ := hblocks _ (List.getElem_mem hlt)
  obtain ⟨r, hr, hsource, hnumber⟩ := Block.exists_pitch hpitches block
  exact ⟨r, List.mem_flatMap.2 ⟨_, hmem, hr⟩, hsource, hnumber⟩

/-- The key that a tune is in. For every text whose score comes through the meters, and behind every
block of it: the key in force among the signatures is that of the last one that was not dropped, and
a reader of the tune, by its rows or by nothing but its texts, is left in the same key unless the
last change of key went to a barline in front of the first note of its block and the block opens
with a signature that changed the key as well. Then the reader is left in the key of the opening
signature. -/
theorem Score.replayedKey_behind {text : String} {s : Score} (hparse : Score.parse text = .ok s)
    {o : Options} {t : Table} (h : s.behind .meters o = .ok t) {block : Nat} (hpos : 1 ≤ block)
    (hle : block ≤ s.blocks.length) :
    s.behind .keys o = .ok t.withKeys
      ∧ t.activeKey block = some (KeyMark.lastKey (t.keyMarksTo block))
      ∧ t.withKeys.readKey block = t.withKeys.replayedKey block
      ∧ t.withKeys.replayedKey block
        = ((t.overtaking? block).map (·.key)).getD (KeyMark.lastKey (t.keyMarksTo block)) := by
  obtain ⟨⟨heading, meter, hprepared⟩, hrows⟩ := Score.prepared_behind h
  have hpitch : ∃ r ∈ t, r.source = .pitch ∧ r.block ≤ block := by
    obtain ⟨r, hr, hsource, hblock⟩ := exists_pitch_of_parse hparse hpos hle
    obtain ⟨r', hr', houtline⟩ := hrows r hr
    have hkeeps : ∀ {β : Type} (g : Row → β), g r'.outline = g r.outline := fun g => congrArg g houtline
    have hsame : r'.source = r.source := hkeeps Row.source
    have hsameBlock : r'.block = r.block := hkeeps Row.block
    exact ⟨r', hr', hsame.trans hsource, Int.le_of_eq (hsameBlock.trans hblock)⟩
  have hfield : t.withKeys.field? "K" = some (Keys.headingKey t.keyMarks) := by
    rw [(hprepared.drafted.of_unmarked (map_unmarked_withKeys t)).field?]
    exact hprepared.lookup_withKeys.2.2
  exact ⟨Score.behind_keys h, hprepared.measured.activeKey_eq hpitch, hprepared.readKey_eq block,
    hprepared.measured.replayedKey_eq hprepared.keyless hfield hpitch⟩

/-- A block that opens with a key, and changes it at a barline in front of its first note, and a block
that repeats the second key. -/
def overtakenText : String :=
  "la\nc\n\n| la\nK#1 | K#2 d\n\nla\nK#2 e"

/-- The score of the text and its table behind the meters, with the keys behind two of its blocks. -/
def overtakenTable : {r : Score × Table // ((Score.parse overtakenText).bind fun s =>
      (s.behind .meters {}).map fun t => (s, t)) = .ok r
    ∧ r.1.blocks.length = 3
    ∧ r.2.withKeys.replayedKey 2 = "G major" ∧ r.2.activeKey 2 = some "D major"
    ∧ r.2.withKeys.replayedKey 3 = "G major" ∧ r.2.activeKey 3 = some "D major"} :=
  checked (by decide +kernel)

theorem Score.replayedKey_behind_overtakenText :
    ∃ s t, Score.parse overtakenText = .ok s ∧ s.behind .meters {} = .ok t ∧ 3 ≤ s.blocks.length
      ∧ s.behind .keys {} = .ok t.withKeys
      ∧ t.activeKey 3 = some (KeyMark.lastKey (t.keyMarksTo 3))
      ∧ t.withKeys.readKey 3 = t.withKeys.replayedKey 3
      ∧ t.withKeys.replayedKey 3
        = ((t.overtaking? 3).map (·.key)).getD (KeyMark.lastKey (t.keyMarksTo 3)) := by
  obtain ⟨r, hread, hblocks, -⟩ := overtakenTable
  obtain ⟨s, hparse, hrest⟩ := bind_eq_ok.1 hread
  obtain ⟨t, ht, rfl⟩ := map_eq_ok.1 hrest
  have hthree : 3 ≤ s.blocks.length := Nat.le_of_eq hblocks.symm
  exact ⟨s, t, hparse, ht, hthree, Score.replayedKey_behind hparse ht (by decide) hthree⟩

/-- Behind the second block and the third, the reader is left in G major, and the key in force among
the signatures is D major. -/
theorem Score.replayedKey_overtaken :
    ∃ s t, Score.parse overtakenText = .ok s ∧ s.behind .meters {} = .ok t
      ∧ s.behind .keys {} = .ok t.withKeys
      ∧ t.withKeys.replayedKey 2 = "G major" ∧ t.activeKey 2 = some "D major"
      ∧ t.withKeys.replayedKey 3 = "G major" ∧ t.activeKey 3 = some "D major" := by
  obtain ⟨r, hread, -, hkeys⟩ := overtakenTable
  obtain ⟨s, hparse, hrest⟩ := bind_eq_ok.1 hread
  obtain ⟨t, ht, rfl⟩ := map_eq_ok.1 hrest
  exact ⟨s, t, hparse, ht, Score.behind_keys ht, hkeys⟩

end LyricScore
