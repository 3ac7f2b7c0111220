/-
Units by region. A unit mark holds for its whole measure and for those behind it, up to the measure of
the next mark. So the unit of a row can be told from its measure alone: it is that of the last mark
that stands in the same measure or in an earlier one, where marks in measures without notes do not
count.

# Measures and places

The rule speaks of measures and the program of places: it looks for the row where the measure of a
mark starts, and then hands units on from row to row. Three facts join the two. Measures are counted
by barlines (`Table.Counted`), so the search that stops at a barline finds the first note of the
measure (`firstRhythm?_eq_opening?`). Measures stand in order, so the marks take effect in order
(`inOrder_declarations`), and a measure opens up to a note exactly when it is not later than the
note's own (`opening?_le_iff`). And of marks that take effect in order, the last one up to a place is
in force there (`getElem?_spread`).
-/
import LyricScore.Proofs.Score.RoundTrip
import LyricScore.Proofs.Table.Underlay
import LyricScore.Proofs.Table.Units
import LyricScore.Proofs.Text.Numeral

namespace LyricScore

open Text

-- ============================================================= marks

/-- The unit marks that are known, with their units. -/
def knownMarks : List (String × Rat) :=
  [("[1]", 1), ("[2]", 1 / 2), ("[4]", 1 / 4), ("[8]", 1 / 8),
   ("[1.]", 1 / 2), ("[2.]", 1 / 4), ("[4.]", 1 / 8), ("[8.]", 1 / 16)]

theorem declaredUnit?_of_known {text : String} (h : text ∈ knownMarks.map (·.1)) :
    declaredUnit? text = .ok (knownMarks.lookup text) := by
  simp only [knownMarks, List.map_cons, List.map_nil, List.mem_cons, List.not_mem_nil, or_false] at h
  rcases h with rfl | rfl | rfl | rfl | rfl | rfl | rfl | rfl <;> rfl

/-- What a mark with a number that is not negative says. -/
theorem unitMark?_text {m : UnitMark} (h : 0 ≤ m.number) :
    unitMark? m.text.toList = some (Nat.toDigits 10 m.number.toNat, m.dotted) := by
  refine Reader.unitMark?_eq_some.2
    ⟨Nat.toDigits_ne_nil, fun c hc => isDigit_of_mem_toDigits hc, ?_⟩
  simp only [UnitMark.text, String.toList_append, toList_decimal_of_nonneg h, Reader.unitChars]
  cases m.dotted <;> simp

theorem unitMark?_text_of_neg {m : UnitMark} (h : m.number < 0) : unitMark? m.text.toList = none := by
  have hsign : m.text.toList = '[' :: '-' :: (Nat.toDigits 10 m.number.natAbs
      ++ (if m.dotted then ['.'] else []) ++ [']']) := by
    simp only [UnitMark.text, String.toList_append, toList_decimal_eq, if_pos h]
    cases m.dotted <;> simp
  rw [hsign, unitMark?, List.takeWhile_cons_of_neg (by decide)]
  rfl

theorem trim_text (m : UnitMark) : trim m.text.toList = m.text.toList := by
  have htext : m.text.toList = ('[' :: ((decimal m.number).toList
      ++ (if m.dotted then ['.'] else []))) ++ [']'] := by
    simp only [UnitMark.text, String.toList_append]
    cases m.dotted <;> simp
  rw [htext]
  refine trim_eq_self (fun c hc => ?_) fun c hc => ?_
  · obtain rfl : '[' = c := Option.some.inj hc
    decide
  · rw [List.getLast?_concat] at hc
    obtain rfl := Option.some.inj hc
    decide

theorem text_of_markedUnit? {n : Nat} {dotted : Bool} {unit : Rat}
    (h : markedUnit? n dotted = some unit) : UnitMark.text ⟨n, dotted⟩ ∈ knownMarks.map (·.1) := by
  unfold markedUnit? at h
  split at h
  case h_9 => cases h
  all_goals decide

/-- Every mark can be read, as long as its number can; and it declares what the marks that are known
say. -/
theorem declaredUnit?_text {m : UnitMark} (h : fits m.number = true) :
    declaredUnit? m.text = .ok (knownMarks.lookup m.text) := by
  by_cases hknown : m.text ∈ knownMarks.map (·.1)
  · exact declaredUnit?_of_known hknown
  have hlookup : knownMarks.lookup m.text = none := by
    refine List.lookup_eq_none_iff.2 fun p hp => bne_iff_ne.2 fun heq => hknown ?_
    rw [heq]
    exact List.mem_map_of_mem hp
  rw [hlookup, declaredUnit?, trim_text]
  by_cases hneg : m.number < 0
  · rw [unitMark?_text_of_neg hneg]
  · have hpos : 0 ≤ m.number := Int.not_lt.1 hneg
    rw [unitMark?_text hpos]
    dsimp only
    rw [Reader.natural_of_fits h]
    dsimp only
    cases hunit : markedUnit? m.number.toNat m.dotted with
    | none => rfl
    | some unit =>
        -- the number and the dot are those of a known mark
        refine absurd (text_of_markedUnit? hunit) ?_
        rwa [Int.toNat_of_nonneg hpos]

-- ============================================================== rule

/-- A unit mark of a lyric line. -/
def Row.isMark (r : Row) : Bool :=
  r.source == .lyric && r.kind == .unit

/-- The unit that a mark declares; one that is not known declares a quarter. -/
def Row.markUnit (r : Row) : Rat :=
  (knownMarks.lookup r.raw).getD (1 / 4)

/-- The measure in which a row stands. -/
def Row.measureAt? (r : Row) : Option MeasureKey :=
  r.measure.map fun measure => ⟨r.block, measure⟩

/-- Measures come in the order of their blocks, and then by their numbers. -/
instance : LE MeasureKey :=
  ⟨fun k l => k.block < l.block ∨ k.block = l.block ∧ k.measure ≤ l.measure⟩

theorem MeasureKey.le_iff {k l : MeasureKey} :
    k ≤ l ↔ k.block < l.block ∨ k.block = l.block ∧ k.measure ≤ l.measure :=
  Iff.rfl

instance (k l : MeasureKey) : Decidable (k ≤ l) :=
  decidable_of_iff _ MeasureKey.le_iff.symm

theorem MeasureKey.le_antisymm {k l : MeasureKey} (h : k ≤ l) (h' : l ≤ k) : k = l := by
  rw [MeasureKey.le_iff] at h h'
  obtain ⟨b, m⟩ := k
  obtain ⟨b', m'⟩ := l
  simp only [MeasureKey.mk.injEq] at h h' ⊢
  omega

namespace Table

/-- The unit marks of a table, in order. -/
def marks (t : Table) : List Row :=
  t.filter Row.isMark

/-- Whether a measure is heard: a row that takes time stands in it. -/
def isHeard (t : Table) (k : MeasureKey) : Bool :=
  t.any fun r => r.isRhythm && r.measureAt? == some k

/-- Whether a mark has notes to apply to: its measure is heard. -/
def applies (t : Table) (m : Row) : Bool :=
  m.measureAt?.any t.isHeard

/-- The unit in a measure: that of the last mark among those that apply and stand in no later measure,
or else a quarter. -/
def unitIn (t : Table) (k : MeasureKey) : Rat :=
  ((t.marks.filter fun m => t.applies m && m.measureAt?.any fun l => decide (l ≤ k)).getLast?.map
    Row.markUnit).getD (1 / 4)

/-- The unit for the heading: that of the first row that takes time, or else of the last mark, or else
a quarter. -/
def leadingUnit (t : Table) : Rat :=
  (((t.find? Row.isRhythm).bind Row.measureAt?).map t.unitIn).getD
    ((t.marks.getLast?.map Row.markUnit).getD (1 / 4))

/-- A table whose units go by measures, and the warnings about its marks. -/
structure UnitsByMeasure (t out : Table) (warnings : List Warning) : Prop where
  /-- The rows stay where they are. -/
  outline : out.map Row.outline = t.map Row.outline
  /-- Every row that takes time has the unit of its measure. -/
  unit : ∀ r ∈ out, r.isRhythm = true → ∃ k, r.measureAt? = some k ∧ r.unit = some (t.unitIn k)
  /-- So rows of a measure have one unit. -/
  constant : ∀ q ∈ out, ∀ r ∈ out, q.isRhythm = true → r.isRhythm = true → q.block = r.block →
    q.measure = r.measure → q.unit = r.unit
  /-- There is a warning for each mark that is not known, and one for each without notes. -/
  warnings : warnings = t.marks.flatMap fun m =>
    (if (knownMarks.lookup m.raw).isSome then [] else [.unknownUnit m.block m.raw])
      ++ (if t.applies m then [] else [.unitWithoutNotes m.block m.raw])
  /-- The heading has the unit that leads. -/
  heading : ∀ r ∈ out, r.source = .header → r.raw = "L" → r.draftText = some (unitText t.leadingUnit)

end Table

-- =========================================================== counting

/-- A place in two lists, one behind the other, is in one of them. -/
theorem append_cons_cases {α : Type} {a b before after : List α} {x : α}
    (h : a ++ b = before ++ x :: after) :
    (∃ more, a = before ++ x :: more) ∨ ∃ more, before = a ++ more ∧ b = more ++ x :: after := by
  rcases List.append_eq_append_iff.1 h with ⟨more, hbefore, hb⟩ | ⟨more, ha, hrest⟩
  · exact Or.inr ⟨more, hbefore, hb⟩
  · cases more with
    | nil => exact Or.inr ⟨[], by simp [ha], hrest.symm⟩
    | cons y more =>
        obtain ⟨rfl, -⟩ := List.cons.inj hrest
        exact Or.inl ⟨more, ha⟩

/-- A table whose measures are counted by barlines. Headings stand in front; blocks stand one behind
the other; and a lyric row is in the first measure of its block, or as many later as there are
barlines of the block before it. -/
structure Table.Counted (first : Int → Int) (t : Table) : Prop where
  ordered : t.Pairwise fun q r => q.source ≠ .header → r.source ≠ .header ∧ q.block ≤ r.block
  measure : ∀ (before : List Row) (r : Row) (after : List Row), t = before ++ r :: after →
    r.source = .lyric → r.measure
      = some (first r.block + (Table.countIn before Keys.isLyricBarline r.block : Nat))

namespace Table.Counted

variable {first : Int → Int}

theorem of_append {a b : Table} (ha : a.Counted first) (hb : b.Counted first)
    (hordered : ∀ q ∈ a, ∀ r ∈ b, q.source ≠ .header → r.source ≠ .header ∧ q.block ≤ r.block)
    (hparted : ∀ q ∈ a, ∀ r ∈ b, Keys.isLyricBarline q = true → r.source = .lyric →
      q.block ≠ r.block) :
    Table.Counted first (a ++ b) := by
  refine ⟨List.pairwise_append.2 ⟨ha.ordered, hb.ordered, hordered⟩, ?_⟩
  intro before r after hsplit hsource
  rcases append_cons_cases hsplit with ⟨more, hmore⟩ | ⟨more, rfl, hmore⟩
  · exact ha.measure before r more hmore hsource
  · have hr : r ∈ b := by simp [hmore]
    rw [Table.countIn_append, Table.countIn_eq_zero fun q hq hbar => hparted q hq r hr hbar hsource,
      Nat.zero_add]
    exact hb.measure more r after hmore hsource

end Table.Counted

-- ============================================================ layout

/-- A lyric line counts its measures by its barlines. -/
theorem lyricRows_measure {block : Int} {counter : Option Int} {measure beat : Int}
    {items : List LyricItem} {before after : List Row} {r : Row}
    (h : lyricRows block counter measure beat items = before ++ r :: after) :
    r.measure = some (measure + (Table.countIn before Keys.isLyricBarline block : Nat)) := by
  induction items generalizing measure beat before with
  | nil =>
      rw [lyricRows] at h
      cases before <;> cases h
  | cons item rest ih =>
      cases item with
      | barline =>
          cases before with
          | nil =>
              obtain ⟨rfl, -⟩ := List.cons.inj h
              exact congrArg some (Int.add_zero measure).symm
          | cons q before =>
              obtain ⟨rfl, htail⟩ := List.cons.inj h
              rw [ih htail, Table.countIn_cons, if_pos ⟨rfl, rfl⟩]
              exact congrArg some (by omega)
      | unit m =>
          cases before with
          | nil =>
              obtain ⟨rfl, -⟩ := List.cons.inj h
              exact congrArg some (Int.add_zero measure).symm
          | cons q before =>
              obtain ⟨rfl, htail⟩ := List.cons.inj h
              rw [ih htail, Table.countIn_cons, if_neg fun h => Bool.false_ne_true h.1]
              rfl
      | beat b =>
          -- the rows of a beat take time, so there is no barline among them
          have hnone : ∀ rows : List Row, (∀ q ∈ rows, q ∈ b.rows block counter measure beat) →
              Table.countIn rows Keys.isLyricBarline block = 0 := by
            refine fun rows hrows => Table.countIn_eq_zero fun q hq hbar => ?_
            rw [isLyricBarline_of_isRhythm (mem_beat_rows (hrows q hq)).2.2.1] at hbar
            cases hbar
          rcases append_cons_cases h with ⟨more, hrows⟩ | ⟨more, rfl, hmore⟩
          · have hr := (mem_beat_rows (hrows ▸ by simp : r ∈ b.rows block counter measure beat))
            rw [hr.2.2.2.1, hnone before fun q hq => by simp [hrows, hq]]
            exact congrArg some (Int.add_zero measure).symm
          · rw [ih hmore, Table.countIn_append, hnone _ fun q hq => hq, Nat.zero_add]

theorem Block.source_of_mem_rows {number : Int} {b : Block} {r : Row} (h : r ∈ b.rows number) :
    r.source ≠ .header := by
  obtain ⟨pitches, hrows, hpitch⟩ := b.rows_eq number
  rw [hrows] at h
  rcases List.mem_append.1 h with h | h
  · rw [(mem_lyricRows h).1]
    decide
  · rw [(hpitch r h).1]
    decide

/-- The rows of a block count its measures from the first one on. -/
theorem Block.rows_counted {first : Int → Int} {number : Int} {b : Block}
    (h : first number = b.firstMeasure) : Table.Counted first (b.rows number) := by
  refine ⟨?_, fun before r after hsplit hlyric => ?_⟩
  · refine List.pairwise_iff_forall_sublist.2 fun {q r} hsub _ => ?_
    have hq := Block.block_of_mem_rows (hsub.subset (by simp : q ∈ [q, r]))
    have hr := Block.block_of_mem_rows (hsub.subset (by simp : r ∈ [q, r]))
    exact ⟨Block.source_of_mem_rows (hsub.subset (by simp)), Int.le_of_eq (hq.trans hr.symm)⟩
  · have hr : r ∈ b.rows number := by simp [hsplit]
    obtain ⟨pitches, hrows, hpitch⟩ := b.rows_eq number
    rw [Block.block_of_mem_rows hr, h]
    rw [hrows] at hsplit
    rcases append_cons_cases hsplit with ⟨more, hlyrics⟩ | ⟨more, -, hmore⟩
    · exact lyricRows_measure hlyrics
    · have hsource := (hpitch r (by simp [hmore])).1
      rw [hlyric] at hsource
      cases hsource

theorem counted_blocks {first : Int → Int} {blocks : List Block} {n : Nat}
    (h : ∀ p ∈ blocks.zipIdx n, first p.2 = p.1.firstMeasure) :
    Table.Counted first ((blocks.zipIdx n).flatMap fun b => b.1.rows b.2) := by
  induction blocks generalizing n with
  | nil => exact ⟨List.Pairwise.nil, fun before r after h => by cases before <;> cases h⟩
  | cons b blocks ih =>
      rw [List.zipIdx_cons] at h ⊢
      obtain ⟨hb, hmore⟩ := List.forall_mem_cons.1 h
      rw [List.flatMap_cons]
      have hlater : ∀ q ∈ b.rows n, ∀ r ∈ (blocks.zipIdx (n + 1)).flatMap (fun b => b.1.rows b.2),
          r.source ≠ .header ∧ q.block < r.block := by
        intro q hq r hr
        obtain ⟨p, hp, hr⟩ := List.mem_flatMap.1 hr
        have hplace := List.le_snd_of_mem_zipIdx hp
        have hqn := Block.block_of_mem_rows hq
        have hrn := Block.block_of_mem_rows hr
        exact ⟨Block.source_of_mem_rows hr, by omega⟩
      refine .of_append (Block.rows_counted hb) (ih hmore) (fun q hq r hr _ => ?_)
        fun q hq r hr _ _ => Int.ne_of_lt (hlater q hq r hr).2
      exact ⟨(hlater q hq r hr).1, Int.le_of_lt (hlater q hq r hr).2⟩

/-- Every score counts the measures of its blocks, with or without a heading in front. -/
theorem Score.exists_counted (s : Score) {heads : Table} (hheads : ∀ r ∈ heads, r.source = .header) :
    ∃ first, Table.Counted first (heads ++ s.layout) := by
  have hlayout : Table.Counted
      (fun block => (s.blocks[(block - 1).toNat]?.map Block.firstMeasure).getD 0) s.layout := by
    refine counted_blocks fun p hp => ?_
    obtain ⟨hle, hget⟩ := List.mem_zipIdx_iff_le_and_getElem?_sub.1 hp
    have hplace : ((p.2 : Int) - 1).toNat = p.2 - 1 := by omega
    rw [hplace, hget]
    rfl
  refine ⟨_, .of_append ⟨?_, fun before r after hsplit hlyric => ?_⟩ hlayout ?_ ?_⟩
  · exact List.pairwise_of_forall_mem_list fun q hq r _ h => absurd (hheads q hq) h
  · rw [hheads r (by simp [hsplit])] at hlyric
    cases hlyric
  · exact fun q hq r _ h => absurd (hheads q hq) h
  · intro q hq r _ hbar
    simp [Keys.isLyricBarline, hheads q hq] at hbar

-- ========================================================== openings

theorem countIn_concat {r : Row} (h : Keys.isLyricBarline r = false) (seen : Table) (c : Int) :
    Table.countIn (seen ++ [r]) Keys.isLyricBarline c = seen.countIn Keys.isLyricBarline c := by
  rw [Table.countIn_append, Table.countIn_cons, h, if_neg fun h => Bool.false_ne_true h.1]
  rfl

theorem measureAt?_eq_some {r : Row} {k : MeasureKey} :
    r.measureAt? = some k ↔ r.block = k.block ∧ r.measure = some k.measure := by
  obtain ⟨block, measure⟩ := k
  unfold Row.measureAt?
  cases r.measure with
  | none => simp
  | some m => simp

/-- The place where a measure opens: that of the first row in it that takes time. -/
def Table.opening? (t : Table) (k : MeasureKey) : Option Nat :=
  t.findIdx? fun r => r.isRhythm && r.measureAt? == some k

theorem Table.opening?_eq_none {t : Table} {k : MeasureKey}
    (h : ∀ q ∈ t, q.isRhythm = true → q.measureAt? ≠ some k) : t.opening? k = none := by
  refine List.findIdx?_eq_none_iff.2 fun q hq => Bool.eq_false_iff.2 fun hfound => ?_
  rw [Bool.and_eq_true, beq_iff_eq] at hfound
  exact h q hq hfound.1 hfound.2

theorem Table.isSome_opening? (t : Table) (k : MeasureKey) : (t.opening? k).isSome = t.isHeard k :=
  List.findIdx?_isSome

namespace Table.Counted

variable {first : Int → Int} {t : Table}

/-- The measure of a lyric row, from its place. -/
theorem measure_at (h : t.Counted first) {place : Nat} {r : Row} (hr : t[place]? = some r)
    (hsource : r.source = .lyric) : r.measure
      = some (first r.block + (Table.countIn (t.take place) Keys.isLyricBarline r.block : Nat)) := by
  obtain ⟨hlt, rfl⟩ := List.getElem?_eq_some_iff.1 hr
  refine h.measure _ _ (t.drop (place + 1)) ?_ hsource
  rw [List.getElem_cons_drop, List.take_append_drop]

/-- Lyric rows stand in the order of their measures. -/
theorem le_of_le (h : t.Counted first) {i j : Nat} {q r : Row} (hi : t[i]? = some q)
    (hj : t[j]? = some r) (hij : i ≤ j) (hq : q.source = .lyric) (hr : r.source = .lyric)
    {k l : MeasureKey} (hk : q.measureAt? = some k) (hl : r.measureAt? = some l) : k ≤ l := by
  obtain ⟨hqb, hqm⟩ := measureAt?_eq_some.1 hk
  obtain ⟨hrb, hrm⟩ := measureAt?_eq_some.1 hl
  have hqm' := Option.some.inj ((h.measure_at hi hq).symm.trans hqm)
  have hrm' := Option.some.inj ((h.measure_at hj hr).symm.trans hrm)
  have hblock : q.block ≤ r.block := by
    rcases Nat.lt_or_eq_of_le hij with hlt | rfl
    · obtain ⟨hi', rfl⟩ := List.getElem?_eq_some_iff.1 hi
      obtain ⟨hj', rfl⟩ := List.getElem?_eq_some_iff.1 hj
      exact (List.pairwise_iff_getElem.1 h.ordered i j hi' hj' hlt (by rw [hq]; decide)).2
    · obtain rfl := Option.some.inj (hi.symm.trans hj)
      exact Int.le_refl _
  rw [MeasureKey.le_iff]
  by_cases hsame : q.block = r.block
  · -- there are no fewer barlines before the later row
    have hcount : Table.countIn (t.take i) Keys.isLyricBarline q.block
        ≤ Table.countIn (t.take j) Keys.isLyricBarline r.block := by
      rw [hsame]
      exact List.Sublist.countP_le (List.take_sublist_take_left hij)
    rw [hsame] at hqm' hcount
    omega
  · omega

/-- A measure opens no later than at a row that takes time, exactly when it is heard and is not later
than the row's own. -/
theorem opening?_le_iff (h : t.Counted first) {place : Nat} {r : Row} {k l : MeasureKey}
    (hr : t[place]? = some r) (hrhythm : r.isRhythm = true) (hk : r.measureAt? = some k) :
    ((t.opening? l).any fun a => decide (a ≤ place)) = (t.isHeard l && decide (l ≤ k)) := by
  rw [← t.isSome_opening? l]
  cases hopening : t.opening? l with
  | none => rfl
  | some a =>
      obtain ⟨ha, hopens, hfirst⟩ := List.findIdx?_eq_some_iff_getElem.1 hopening
      rw [Bool.and_eq_true, beq_iff_eq] at hopens
      have hget := List.getElem?_eq_getElem ha
      rw [Option.any_some, Option.isSome_some, Bool.true_and]
      refine decide_eq_decide.2 ⟨fun hle => ?_, fun hle => Nat.le_of_not_lt fun hlt => ?_⟩
      · exact h.le_of_le hget hr hle (source_of_isRhythm hopens.1) (source_of_isRhythm hrhythm)
          hopens.2 hk
      · -- otherwise it would be the row's own measure, which opens at the row or before
        have hge := h.le_of_le hr hget (Nat.le_of_lt hlt) (source_of_isRhythm hrhythm)
          (source_of_isRhythm hopens.1) hk hopens.2
        obtain rfl := MeasureKey.le_antisymm hle hge
        obtain ⟨hplace, rfl⟩ := List.getElem?_eq_some_iff.1 hr
        exact hfirst place hlt (by simp [hrhythm, hk])

/-- Behind a row of a later block, no row of the block stands. -/
theorem ne_behind_block {early later : List Row} {r : Row}
    (h : Table.Counted first (early ++ r :: later)) (hr : r.source ≠ .header) {k : MeasureKey}
    (hlt : k.block < r.block) : ∀ q ∈ later, q.measureAt? ≠ some k := by
  intro q hq hk
  have hle := (List.pairwise_cons.1 (List.pairwise_append.1 h.ordered).2.1).1 q hq hr
  have hblock := (measureAt?_eq_some.1 hk).1
  omega

/-- Behind a barline, no row of the measure that it ends stands. -/
theorem ne_behind_barline {early later : List Row} {r : Row}
    (h : Table.Counted first (early ++ r :: later)) (hr : Keys.isLyricBarline r = true) {j : Nat}
    (hcount : Table.countIn early Keys.isLyricBarline r.block = j) :
    ∀ q ∈ later, q.source = .lyric → q.measureAt? ≠ some ⟨r.block, first r.block + j⟩ := by
  intro q hq hsource hk
  obtain ⟨between, after, rfl⟩ := List.append_of_mem hq
  obtain ⟨hblock, hm⟩ := measureAt?_eq_some.1 hk
  dsimp only at hblock hm
  have hmeasure := h.measure (early ++ r :: between) q after (by simp) hsource
  rw [hm, hblock, Table.countIn_append, Table.countIn_cons, if_pos ⟨hr, rfl⟩, hcount] at hmeasure
  have hmeasure := Option.some.inj hmeasure
  omega

/-- The search for the first note of a measure, from a place where the measure has started. It stops
at the next barline, or at the next block, behind which no row of the measure can stand. -/
theorem firstRhythm?_scan {c : Int} {j : Nat} {early later : List Row}
    (h : Table.Counted first (early ++ later))
    (hcount : Table.countIn early Keys.isLyricBarline c = j)
    (hearly : ∀ q ∈ early, q.isRhythm = true → q.measureAt? ≠ some ⟨c, first c + j⟩)
    (hlater : ∀ q ∈ later, q.source ≠ .header ∧ c ≤ q.block) :
    Units.firstRhythm? c early.length later = Table.opening? (early ++ later) ⟨c, first c + j⟩ := by
  induction later generalizing early with
  | nil => rw [List.append_nil, Table.opening?_eq_none hearly, Units.firstRhythm?]
  | cons r later ih =>
      obtain ⟨⟨hheader, hle⟩, hmore⟩ := List.forall_mem_cons.1 hlater
      have hskip : r.isRhythm = false → Keys.isLyricBarline r = false →
          Units.firstRhythm? c (early.length + 1) later
            = Table.opening? (early ++ r :: later) ⟨c, first c + j⟩ := by
        intro hrhythm hbar
        have hshift : early ++ r :: later = (early ++ [r]) ++ later := by simp
        rw [hshift] at h ⊢
        rw [← ih h ?_ ?_ hmore, List.length_append, List.length_singleton]
        · rw [countIn_concat hbar, hcount]
        · refine List.forall_mem_append.2 ⟨hearly, List.forall_mem_singleton.2 fun hr => ?_⟩
          rw [hrhythm] at hr
          cases hr
      have hstop : (r.isRhythm = true → r.measureAt? ≠ some ⟨c, first c + j⟩) →
          (∀ q ∈ later, q.isRhythm = true → q.measureAt? ≠ some ⟨c, first c + j⟩) →
          none = Table.opening? (early ++ r :: later) ⟨c, first c + j⟩ := fun hr hrest =>
        (Table.opening?_eq_none (List.forall_mem_append.2
          ⟨hearly, List.forall_mem_cons.2 ⟨hr, hrest⟩⟩)).symm
      unfold Units.firstRhythm?
      split
      · next hblock =>
        have hlt : c < r.block := by omega
        refine hstop (fun _ hr => hblock (measureAt?_eq_some.1 hr).1) fun q hq _ => ?_
        exact h.ne_behind_block hheader hlt q hq
      next hblock =>
      obtain rfl := Decidable.not_not.1 hblock
      split
      · next hsource =>
        exact hskip (by simp [Row.isRhythm, hsource]) (by simp [Keys.isLyricBarline, hsource])
      next hsource =>
      have hlyric := Decidable.not_not.1 hsource
      split
      · next hkind =>
        have hbar : Keys.isLyricBarline r = true := by simp [Keys.isLyricBarline, hlyric, hkind]
        refine hstop (fun hr => ?_) fun q hq hqr =>
          h.ne_behind_barline hbar hcount q hq (source_of_isRhythm hqr)
        rw [isLyricBarline_of_isRhythm hr] at hbar
        cases hbar
      next hkind =>
      split
      · next hrhythm =>
        have hkey : r.measureAt? = some ⟨r.block, first r.block + j⟩ :=
          measureAt?_eq_some.2 ⟨rfl, hcount ▸ h.measure early r later rfl hlyric⟩
        have hnone := Table.opening?_eq_none hearly
        unfold Table.opening? at hnone ⊢
        rw [List.findIdx?_append, hnone, Option.none_or, List.findIdx?_cons, hrhythm, hkey,
          beq_self_eq_true]
        simp
      · next hrhythm =>
        exact hskip (by simpa using hrhythm) (by simp [Keys.isLyricBarline, hkind])

end Table.Counted

/-- A place where a measure of a block starts, behind so many barlines of the block: the notes of the
block before it are in earlier measures, and behind it no earlier block comes. -/
structure Table.StartsMeasure (t : Table) (c : Int) (j : Nat) (start : Nat) : Prop where
  bound : start ≤ t.length
  count : Table.countIn (t.take start) Keys.isLyricBarline c = j
  earlier : ∀ (before : List Row) (q : Row) (after : List Row), t.take start = before ++ q :: after →
    q.isRhythm = true → q.block = c → Table.countIn before Keys.isLyricBarline c < j
  later : ∀ q ∈ t.drop start, q.source ≠ .header ∧ c ≤ q.block

/-- The first note from the start of a measure on is where the measure opens. -/
theorem Table.StartsMeasure.firstRhythm?_eq_opening? {t : Table} {first : Int → Int} {c : Int}
    {j start : Nat} (hs : t.StartsMeasure c j start) (h : t.Counted first) :
    Units.firstRhythm? c start (t.drop start) = t.opening? ⟨c, first c + j⟩ := by
  have hsplit : t.take start ++ t.drop start = t := List.take_append_drop start t
  have hlength : (t.take start).length = start := List.length_take_of_le hs.bound
  have hscan := Table.Counted.firstRhythm?_scan (hsplit.symm ▸ h) hs.count ?_ hs.later
  · rwa [hsplit, hlength] at hscan
  · intro q hq hrhythm hkey
    obtain ⟨before, after, htake⟩ := List.append_of_mem hq
    obtain ⟨hblock, hm⟩ := measureAt?_eq_some.1 hkey
    dsimp only at hblock hm
    have hmeasure := h.measure before q (after ++ t.drop start) (by
      rw [← List.cons_append, ← List.append_assoc, ← htake, hsplit]) (source_of_isRhythm hrhythm)
    have hlt := hs.earlier before q after htake hrhythm hblock
    rw [hm, hblock] at hmeasure
    have hmeasure := Option.some.inj hmeasure
    omega

-- ====================================================== declarations

/-- What a mark declares: its unit, from where its measure opens. -/
def Table.declaration (t : Table) (m : Row) : Declaration :=
  { block := m.block
    raw := m.raw
    target := m.measureAt?.bind t.opening?
    unit := m.markUnit
    known := (knownMarks.lookup m.raw).isSome }

/-- What is known between the rows seen and those that follow: `block` is that of the last lyric row,
and the measure at hand has started at `start`. -/
structure Units.AtMeasure (t : Table) (seen : List Row) (block : Option Int) (start : Nat) :
    Prop where
  known : ∀ q ∈ seen, q.source = .lyric → ∃ c, block = some c ∧ q.block ≤ c
  last : ∀ c, block = some c → ∃ q ∈ seen, q.source = .lyric ∧ q.block = c
  starts : ∀ c, block = some c →
    t.StartsMeasure c (Table.countIn seen Keys.isLyricBarline c) start

namespace Units.AtMeasure

variable {t : Table} {first : Int → Int} {seen rest : List Row} {block : Option Int} {start : Nat}
  {r : Row}

/-- A row of another line changes nothing. -/
theorem pass (h : AtMeasure t seen block start) (hr : r.source ≠ .lyric) :
    AtMeasure t (seen ++ [r]) block start where
  known q hq hsource := by
    rcases List.mem_append.1 hq with hq | hq
    · exact h.known q hq hsource
    · exact absurd (List.mem_singleton.1 hq ▸ hsource) hr
  last c hc := by
    obtain ⟨q, hq, hq'⟩ := h.last c hc
    exact ⟨q, List.mem_append_left _ hq, hq'⟩
  starts c hc := by
    rw [countIn_concat (by simp [Keys.isLyricBarline, hr])]
    exact h.starts c hc

/-- Behind a row of a block, no earlier block comes. -/
theorem later_of_ordered (ht : Table.Counted first (seen ++ r :: rest)) (hr : r.source = .lyric) :
    ∀ q ∈ rest, q.source ≠ .header ∧ r.block ≤ q.block := by
  intro q hq
  have hpair := (List.pairwise_append.1 ht.ordered).2.1
  exact (List.pairwise_cons.1 hpair).1 q hq (by rw [hr]; decide)

/-- A lyric row may be the first one of its block; then a measure starts with it. -/
theorem starts_enter (ht : Table.Counted first (seen ++ r :: rest))
    (h : AtMeasure (seen ++ r :: rest) seen block start) (hr : r.source = .lyric) :
    Table.StartsMeasure (seen ++ r :: rest) r.block (Table.countIn seen Keys.isLyricBarline r.block)
      (if block = some r.block then start else seen.length) := by
  split
  · next hblock => exact h.starts r.block hblock
  · next hblock =>
    -- the blocks of lyric rows grow, so none of the rows seen is of this one
    have hfresh : ∀ q ∈ seen, q.source = .lyric → q.block ≠ r.block := by
      intro q hq hsource heq
      obtain ⟨c, hc, hle⟩ := h.known q hq hsource
      obtain ⟨q', hq', hsource', rfl⟩ := h.last c hc
      have hacross := (List.pairwise_append.1 ht.ordered).2.2 q' hq' r List.mem_cons_self
      have hle' := (hacross (by rw [hsource']; decide)).2
      have hne : q'.block ≠ r.block := fun heq => hblock (heq ▸ hc)
      omega
    refine ⟨by simp, by rw [List.take_left], fun before q after htake hrhythm hq => ?_, ?_⟩
    · rw [List.take_left] at htake
      exact absurd hq (hfresh q (by simp [htake]) (source_of_isRhythm hrhythm))
    · rw [List.drop_left]
      exact List.forall_mem_cons.2 ⟨⟨by rw [hr]; decide, Int.le_refl _⟩, later_of_ordered ht hr⟩

/-- Behind a barline the next measure starts. -/
theorem starts_barline (ht : Table.Counted first (seen ++ r :: rest))
    (hr : Keys.isLyricBarline r = true) :
    Table.StartsMeasure (seen ++ r :: rest) r.block
      (Table.countIn (seen ++ [r]) Keys.isLyricBarline r.block) (seen.length + 1) := by
  have hsplit : seen ++ r :: rest = (seen ++ [r]) ++ rest := by simp
  have hlength : seen.length + 1 = (seen ++ [r]).length := by simp
  have hsource : r.source = .lyric := source_of_isSpoken (by simp [Row.isSpoken, hr])
  have htake : (seen ++ r :: rest).take (seen.length + 1) = seen ++ [r] := by
    rw [hsplit, hlength, List.take_left]
  refine ⟨by simp, by rw [htake], fun before q after hbefore hrhythm hq => ?_, ?_⟩
  · rw [htake] at hbefore
    have hmore : Table.countIn (seen ++ [r]) Keys.isLyricBarline r.block
        = Table.countIn seen Keys.isLyricBarline r.block + 1 := by
      rw [Table.countIn_append, Table.countIn_cons, if_pos ⟨hr, rfl⟩]
      rfl
    rcases append_cons_cases hbefore with ⟨more, rfl⟩ | ⟨more, -, hone⟩
    · rw [hmore, Table.countIn_append]
      omega
    · -- the barline itself takes no time
      have hq : q ∈ [r] := by simp [hone]
      rw [List.mem_singleton.1 hq] at hrhythm
      rw [isLyricBarline_of_isRhythm hrhythm] at hr
      cases hr
  · rw [hsplit, hlength, List.drop_left]
    exact later_of_ordered ht hsource

/-- Behind a lyric row its block is the one at hand. -/
theorem step (ht : Table.Counted first (seen ++ r :: rest)) (hr : r.source = .lyric) {start' : Nat}
    (hstarts : Table.StartsMeasure (seen ++ r :: rest) r.block
      (Table.countIn (seen ++ [r]) Keys.isLyricBarline r.block) start') :
    AtMeasure (seen ++ r :: rest) (seen ++ [r]) (some r.block) start' where
  known q hq hsource := by
    refine ⟨r.block, rfl, ?_⟩
    rcases List.mem_append.1 hq with hq | hq
    · have hacross := (List.pairwise_append.1 ht.ordered).2.2 q hq r List.mem_cons_self
      exact (hacross (by rw [hsource]; decide)).2
    · exact Int.le_of_eq (congrArg Row.block (List.mem_singleton.1 hq))
  last c hc := ⟨r, List.mem_append_right _ List.mem_cons_self, hr, Option.some.inj hc⟩
  starts c hc := Option.some.inj hc ▸ hstarts

end Units.AtMeasure

/-- The marks from a place on, each with what it declares. -/
theorem declarations_from {t : Table} {first : Int → Int} (ht : t.Counted first)
    (hread : ∀ m ∈ t, m.isMark = true → declaredUnit? m.raw = .ok (knownMarks.lookup m.raw))
    {seen rest : List Row} {block : Option Int} {start : Nat} (hsplit : t = seen ++ rest)
    (hat : Units.AtMeasure t seen block start) :
    Units.declarations t block start (rest.zipIdx seen.length)
      = .ok ((rest.filter Row.isMark).map t.declaration) := by
  induction rest generalizing seen block start with
  | nil => rfl
  | cons r rest ih =>
      subst hsplit
      have hshift : seen ++ r :: rest = (seen ++ [r]) ++ rest := by simp
      have hlength : seen.length + 1 = (seen ++ [r]).length := by simp
      rw [List.zipIdx_cons, hlength]
      simp only [Units.declarations]
      split
      · next hsource =>
        rw [ih hshift (hat.pass hsource), List.filter_cons_of_neg (by simp [Row.isMark, hsource])]
      next hsource =>
      have hlyric := Decidable.not_not.1 hsource
      have hstarts := hat.starts_enter ht hlyric
      generalize (if block = some r.block then start else seen.length) = start' at hstarts ⊢
      split
      · next hkind =>
        have hbar : Keys.isLyricBarline r = true := by simp [Keys.isLyricBarline, hlyric, hkind]
        rw [ih hshift (.step ht hlyric (Units.AtMeasure.starts_barline ht hbar)),
          List.filter_cons_of_neg (by simp [Row.isMark, hkind])]
      next hkind =>
      have hbar : Keys.isLyricBarline r = false := by simp [Keys.isLyricBarline, hkind]
      have hnext := Units.AtMeasure.step ht hlyric (countIn_concat hbar _ _ ▸ hstarts)
      split
      · next hunit =>
        have hmark : r.isMark = true := by simp [Row.isMark, hlyric, hunit]
        have hkey : r.measureAt? = some ⟨r.block, _⟩ :=
          measureAt?_eq_some.2 ⟨rfl, ht.measure seen r rest rfl hlyric⟩
        have htarget : Units.firstRhythm? r.block start' ((seen ++ r :: rest).drop start')
            = r.measureAt?.bind (Table.opening? (seen ++ r :: rest)) := by
          rw [hstarts.firstRhythm?_eq_opening? ht, hkey]
          rfl
        rw [hread r (by simp) hmark, ih hshift hnext, htarget, List.filter_cons_of_pos hmark]
        rfl
      · next hunit =>
        rw [ih hshift hnext, List.filter_cons_of_neg (by simp [Row.isMark, hunit])]

/-- The marks of a table, each with what it declares. -/
theorem Table.Counted.declarations_eq {t : Table} {first : Int → Int} (ht : t.Counted first)
    (hread : ∀ m ∈ t, m.isMark = true → declaredUnit? m.raw = .ok (knownMarks.lookup m.raw)) :
    t.declarations = .ok (t.marks.map t.declaration) :=
  declarations_from ht hread (List.nil_append t).symm
    ⟨fun _ hq => absurd hq List.not_mem_nil, fun c hc => (Option.some_ne_none c hc.symm).elim,
      fun c hc => (Option.some_ne_none c hc.symm).elim⟩

-- ============================================================ spread

/-- The unit in force before a place: that of the last mark that took effect before it. -/
def Units.inForce (ds : List Declaration) (place : Nat) : Rat :=
  ((ds.filter fun d => d.target.any fun a => decide (a < place)).getLast?.map (·.unit)).getD
    defaultUnit

theorem Units.inForce_zero (ds : List Declaration) : Units.inForce ds 0 = defaultUnit := by
  have hnone : ds.filter (fun d => d.target.any fun a => decide (a < 0)) = [] := by
    refine List.filter_eq_nil_iff.2 fun d _ => ?_
    cases d.target <;> simp
  rw [Units.inForce, hnone]
  rfl

/-- Declarations that take effect in order. -/
def Units.InOrder (ds : List Declaration) : Prop :=
  ds.Pairwise fun d d' => ∀ a b, d.target = some a → d'.target = some b → a ≤ b

namespace Units.InOrder

variable {ds : List Declaration}

/-- What took effect up to a place is what did before it, and then what does there. -/
theorem filter_target (h : InOrder ds) (place : Nat) :
    ds.filter (fun d => d.target.any fun a => decide (a < place + 1))
      = ds.filter (fun d => d.target.any fun a => decide (a < place))
        ++ ds.filter fun d => decide (d.target = some place) := by
  induction ds with
  | nil => rfl
  | cons d ds ih =>
      obtain ⟨hd, hds⟩ := List.pairwise_cons.1 h
      rw [List.filter_cons, List.filter_cons, List.filter_cons]
      cases htarget : d.target with
      | none => exact ih hds
      | some a =>
          simp only [Option.any_some, Option.some.injEq, decide_eq_true_eq]
          rcases Nat.lt_trichotomy a place with hlt | rfl | hgt
          · rw [if_pos (by omega), if_pos hlt, if_neg (by omega), ih hds, List.cons_append]
          · -- nothing behind this one took effect before
            have hnone : ds.filter (fun d => d.target.any fun b => decide (b < a)) = [] := by
              refine List.filter_eq_nil_iff.2 fun d' hd' hany => ?_
              cases htarget' : d'.target with
              | none =>
                  rw [htarget'] at hany
                  cases hany
              | some b =>
                  rw [htarget'] at hany
                  exact Nat.not_lt.2 (hd d' hd' a b htarget htarget') (of_decide_eq_true hany)
            rw [if_pos (by omega), if_neg (by omega), if_pos rfl, ih hds, hnone, List.nil_append,
              List.nil_append]
          · rw [if_neg (by omega), if_neg (by omega), if_neg (by omega), ih hds]

theorem inForce_succ (h : InOrder ds) (place : Nat) :
    inForce ds (place + 1) = (declaredAt? ds place).getD (inForce ds place) := by
  unfold inForce declaredAt?
  rw [h.filter_target, List.getLast?_append]
  cases (ds.filter fun d => decide (d.target = some place)).getLast? <;> rfl

/-- A row that takes time gets the unit of the last mark that took effect up to its place. -/
theorem getElem?_spread (h : InOrder ds) {rows : List Row} {n i : Nat} {r : Row}
    (hr : (spread ds (inForce ds n) (rows.zipIdx n))[i]? = some r) :
    ∃ q unit declared, rows[i]? = some q ∧ r = { q with unit := unit, declared := declared }
      ∧ (q.isRhythm = true → unit = some (inForce ds (n + i + 1))) := by
  induction rows generalizing n i with
  | nil => cases hr
  | cons q rows ih =>
      obtain ⟨unit, declared, hspread, hunit⟩ :=
        spread_cons ds (inForce ds n) q n (rows.zipIdx (n + 1))
      rw [List.zipIdx_cons, hspread, ← h.inForce_succ] at hr
      rw [← h.inForce_succ] at hunit
      cases i with
      | zero => exact ⟨q, unit, declared, rfl, (Option.some.inj hr).symm, hunit⟩
      | succ i =>
          obtain ⟨q', unit', declared', hq', hr', hunit'⟩ := ih hr
          refine ⟨q', unit', declared', hq', hr', fun hrhythm => ?_⟩
          rw [hunit' hrhythm, Nat.add_right_comm n 1 i]
          rfl

end Units.InOrder

namespace Table.Counted

variable {first : Int → Int} {t : Table}

/-- Measures that come later open later. -/
theorem opening?_mono (h : t.Counted first) {k l : MeasureKey} {a b : Nat} (hkl : k ≤ l)
    (ha : t.opening? k = some a) (hb : t.opening? l = some b) : a ≤ b := by
  obtain ⟨hlt, hopens, -⟩ := List.findIdx?_eq_some_iff_getElem.1 hb
  rw [Bool.and_eq_true, beq_iff_eq] at hopens
  have hiff := h.opening?_le_iff (l := k) (List.getElem?_eq_getElem hlt) hopens.1 hopens.2
  rw [← t.isSome_opening? k, ha, decide_eq_true hkl] at hiff
  exact of_decide_eq_true hiff

/-- The marks take effect in order. -/
theorem inOrder_declarations (h : t.Counted first) : Units.InOrder (t.marks.map t.declaration) := by
  have hordered : t.Pairwise fun q r => q.isMark = true → r.isMark = true →
      ∀ k l, q.measureAt? = some k → r.measureAt? = some l → k ≤ l := by
    refine List.pairwise_iff_getElem.2 fun i j hi hj hij hq hr k l hk hl => ?_
    simp only [Row.isMark, Bool.and_eq_true, beq_iff_eq] at hq hr
    exact h.le_of_le (List.getElem?_eq_getElem hi) (List.getElem?_eq_getElem hj) (Nat.le_of_lt hij)
      hq.1 hr.1 hk hl
  refine List.pairwise_map.2 (List.Pairwise.imp_of_mem ?_ (hordered.filter Row.isMark))
  intro q r hq hr hqr a b ha hb
  obtain ⟨k, hk, ha⟩ := Option.bind_eq_some_iff.1 ha
  obtain ⟨l, hl, hb⟩ := Option.bind_eq_some_iff.1 hb
  exact h.opening?_mono (hqr (List.mem_filter.1 hq).2 (List.mem_filter.1 hr).2 k l hk hl) ha hb

/-- What is in force at a row that takes time is the unit of its measure. -/
theorem inForce_eq_unitIn (h : t.Counted first) {place : Nat} {r : Row} {k : MeasureKey}
    (hr : t[place]? = some r) (hrhythm : r.isRhythm = true) (hk : r.measureAt? = some k) :
    Units.inForce (t.marks.map t.declaration) (place + 1) = t.unitIn k := by
  have hsame : ∀ m, ((t.declaration m).target.any fun a => decide (a < place + 1))
      = (t.applies m && m.measureAt?.any fun l => decide (l ≤ k)) := by
    intro m
    unfold Table.declaration Table.applies
    dsimp only
    cases m.measureAt? with
    | none => rfl
    | some l =>
        rw [Option.bind_some, Option.any_some, Option.any_some, ← h.opening?_le_iff hr hrhythm hk]
        cases t.opening? l with
        | none => rfl
        | some a => exact decide_eq_decide.2 Nat.lt_succ_iff
  unfold Units.inForce Table.unitIn
  rw [List.filter_map, List.getLast?_map, Option.map_map]
  simp only [Function.comp_def, hsame]
  rfl

end Table.Counted

-- ============================================================= scores

/-- The marks of a score can be read, as long as their numbers can. -/
theorem Score.declaredUnit?_of_mark {s : Score} {heads : Table}
    (hheads : ∀ r ∈ heads, r.source = .header)
    (hfits : ∀ b ∈ s.blocks, ∀ m, LyricItem.unit m ∈ b.lyrics → fits m.number = true) :
    ∀ r ∈ heads ++ s.layout, r.isMark = true →
      declaredUnit? r.raw = .ok (knownMarks.lookup r.raw) := by
  intro r hr hmark
  simp only [Row.isMark, Bool.and_eq_true, beq_iff_eq] at hmark
  rcases List.mem_append.1 hr with hr | hr
  · rw [hheads r hr] at hmark
    cases hmark.1
  · obtain ⟨b, hb, number, hlays⟩ := Score.lays_of_mem_layout hr
    cases hlays with
    | lyricBar => cases hmark.2
    | unit _ hmem => exact declaredUnit?_text (hfits b hb _ hmem)
    | @segment _ _ _ segment => exact absurd hmark.2 segment.1.kind_ne_unit
    | opening | pitchBar | key | pitch => cases hmark.1

namespace Table.Counted

variable {first : Int → Int} {t : Table}

/-- Every row that takes time gets the unit of its measure. -/
theorem unit_spread (h : t.Counted first) {r : Row}
    (hr : r ∈ Units.spread (t.marks.map t.declaration) defaultUnit t.zipIdx)
    (hrhythm : r.isRhythm = true) : ∃ k, r.measureAt? = some k ∧ r.unit = some (t.unitIn k) := by
  obtain ⟨i, hi⟩ := List.mem_iff_getElem?.1 hr
  rw [← Units.inForce_zero (t.marks.map t.declaration)] at hi
  obtain ⟨q, unit, declared, hq, rfl, hunit⟩ := h.inOrder_declarations.getElem?_spread hi
  have hqr : q.isRhythm = true := hrhythm
  have hk : q.measureAt? = some ⟨q.block, _⟩ :=
    measureAt?_eq_some.2 ⟨rfl, h.measure_at hq (source_of_isRhythm hqr)⟩
  refine ⟨_, hk, ?_⟩
  rw [← h.inForce_eq_unitIn hq hqr hk, ← Nat.zero_add i]
  exact hunit hqr

/-- The heading gets the unit that leads. -/
theorem headingUnit_eq (h : t.Counted first) :
    Units.headingUnit (t.marks.map t.declaration)
      (Units.spread (t.marks.map t.declaration) defaultUnit t.zipIdx) = t.leadingUnit := by
  have hfind := congrArg (List.find? Row.isRhythm)
    (map_unmarked_spread_zipIdx (t.marks.map t.declaration) defaultUnit t)
  rw [List.find?_map, List.find?_map] at hfind
  have hsame : Row.isRhythm ∘ Row.unmarked = Row.isRhythm := rfl
  rw [hsame] at hfind
  unfold Units.headingUnit Table.leadingUnit
  cases hq : t.find? Row.isRhythm with
  | none =>
      rw [hq, Option.map_none, Option.map_eq_none_iff] at hfind
      rw [hfind, List.getLast?_map, Option.map_map]
      rfl
  | some q =>
      rw [hq, Option.map_some, Option.map_eq_some_iff] at hfind
      obtain ⟨r, hr, hrow⟩ := hfind
      obtain ⟨k, hk, hunit⟩ := h.unit_spread (List.mem_of_find?_eq_some hr) (List.find?_some hr)
      have hmeasure : q.measureAt? = r.measureAt? := (congrArg Row.measureAt? hrow).symm
      rw [hr, Option.bind_some, hmeasure, hk]
      dsimp only
      rw [hunit]
      rfl

/-- The warnings about the marks. -/
theorem flatMap_warnings (t : Table) :
    (t.marks.map t.declaration).flatMap Units.warnings = t.marks.flatMap fun m =>
      (if (knownMarks.lookup m.raw).isSome then [] else [.unknownUnit m.block m.raw])
        ++ (if t.applies m then [] else [.unitWithoutNotes m.block m.raw]) := by
  rw [List.flatMap_map]
  congr 1
  funext m
  have htarget : (t.declaration m).target.isSome = t.applies m := by
    unfold Table.declaration Table.applies
    dsimp only
    cases m.measureAt? with
    | none => rfl
    | some k => exact t.isSome_opening? k
  rw [Units.warnings, htarget]
  rfl

end Table.Counted

/-- Units go by measures. On the table of a score, with or without a heading in front, every row that
takes time gets the unit of the last mark that has notes and stands in no later measure, and a quarter
if there is none; there is a warning for each mark without notes; and the heading gets the unit of the
first row that takes time, or of the last mark, or a quarter. -/
theorem Table.unitsByMeasure_of_layout {s : Score} {heads : Table}
    (hheads : ∀ r ∈ heads, r.source = .header)
    (hfits : ∀ b ∈ s.blocks, ∀ m, LyricItem.unit m ∈ b.lyrics → fits m.number = true) :
    ∃ ds, Table.declarations (heads ++ s.layout) = .ok ds
      ∧ Table.UnitsByMeasure (heads ++ s.layout) (Table.withUnitsOf (heads ++ s.layout) ds)
          (ds.flatMap Units.warnings) := by
  obtain ⟨first, ht⟩ := s.exists_counted hheads
  have hread := Score.declaredUnit?_of_mark hheads hfits
  generalize heads ++ s.layout = t at ht hread ⊢
  have hunit : ∀ r ∈ t.withUnitsOf (t.marks.map t.declaration), r.isRhythm = true →
      ∃ k, r.measureAt? = some k ∧ r.unit = some (t.unitIn k) := by
    intro r hr hrhythm
    refine ht.unit_spread (mem_of_mem_setField hr ?_) hrhythm
    rw [source_of_isRhythm hrhythm]
    decide
  refine ⟨_, ht.declarations_eq hread, ?_, hunit, ?_, Table.Counted.flatMap_warnings t, ?_⟩
  · exact map_outline_of_sung (map_sung_of_unmarked (map_unmarked_withUnitsOf t _))
  · intro q hq r hr hqr hrr hblock hmeasure
    obtain ⟨k, hk, hqu⟩ := hunit q hq hqr
    obtain ⟨l, hl, hru⟩ := hunit r hr hrr
    have hsame : q.measureAt? = r.measureAt? := by
      unfold Row.measureAt?
      rw [hblock, hmeasure]
    obtain rfl := Option.some.inj (hk.symm.trans (hsame.trans hl))
    rw [hqu, hru]
  · intro r hr hheader hraw
    obtain ⟨q, -, rfl⟩ := List.mem_map.1 hr
    split at hheader
    · next hfield =>
      rw [if_pos hfield, ht.headingUnit_eq]
    · next hfield =>
      rw [if_neg hfield] at hraw
      exact absurd ⟨hheader, hraw⟩ hfield

/-- Marks in the middle of a measure, two in one measure, one without notes, one that is not known,
and a negative one at the end of a block. -/
def markedScore : Score :=
  { blocks :=
      [{ lyrics := [.beat ⟨[.syllable "la"], 1⟩, .unit ⟨2, false⟩, .beat ⟨[.marker .tie], 1⟩,
           .unit ⟨4, true⟩, .barline, .unit ⟨1, false⟩, .barline, .beat ⟨[.marker .rest], 1⟩,
           .unit ⟨7, false⟩]
         pitches := ⟨none, [.pitch ⟨"c", .plain, ""⟩]⟩
         counter := none },
       { lyrics := [.unit ⟨8, false⟩, .beat ⟨[.marker .attack], 1⟩, .barline, .unit ⟨-4, false⟩]
         pitches := ⟨none, []⟩
         counter := some 2 }]
    title := "" }

example : [⟨1, 1⟩, ⟨1, 3⟩, ⟨2, 0⟩].map markedScore.layout.unitIn = [1 / 8, 1 / 4, 1 / 8] := by
  decide +kernel

theorem Table.unitsByMeasure_of_layout_markedScore :
    (∀ r ∈ headingRows "Marks", r.source = .header)
      ∧ (∀ b ∈ markedScore.blocks, ∀ m, LyricItem.unit m ∈ b.lyrics → fits m.number = true)
      ∧ ∃ ds, Table.declarations (headingRows "Marks" ++ markedScore.layout) = .ok ds
        ∧ Table.UnitsByMeasure (headingRows "Marks" ++ markedScore.layout)
          (Table.withUnitsOf (headingRows "Marks" ++ markedScore.layout) ds)
          (ds.flatMap Units.warnings) := by
  have hheads : ∀ r ∈ headingRows "Marks", r.source = .header := by decide
  have hshort : ∀ n ∈ [2, 4, 1, 7, 8, -4], fits n = true := by
    have hten : ∀ k, k ≠ 0 → 10 ≤ Nat.pow 10 k := fun k hk => Nat.le_self_pow hk 10
    intro n hn
    have hsmall : ∀ n ∈ ([2, 4, 1, 7, 8, -4] : List Int), n.natAbs < 10 := by decide
    exact decide_eq_true (Nat.lt_of_lt_of_le (hsmall n hn) (hten maxDigits (by decide)))
  have hfits : ∀ b ∈ markedScore.blocks, ∀ m, LyricItem.unit m ∈ b.lyrics →
      fits m.number = true := by
    intro b hb m hm
    refine hshort m.number ?_
    simp only [markedScore, List.mem_cons, List.not_mem_nil, or_false] at hb
    rcases hb with rfl | rfl
    · simp only [List.mem_cons, List.not_mem_nil, or_false, false_or, reduceCtorEq,
        LyricItem.unit.injEq] at hm
      rcases hm with rfl | rfl | rfl | rfl <;> decide
    · simp only [List.mem_cons, List.not_mem_nil, or_false, false_or, reduceCtorEq,
        LyricItem.unit.injEq] at hm
      rcases hm with rfl | rfl <;> decide
  exact ⟨hheads, hfits, Table.unitsByMeasure_of_layout hheads hfits⟩

end LyricScore
