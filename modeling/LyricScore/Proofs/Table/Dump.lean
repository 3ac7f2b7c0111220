/-
Tables read back from their text. A row is read back exactly if none of its texts holds a line
end that is not escaped: any other text, and every number that can be written, comes back as it
was. A line end in the middle of a row cuts the row in two, and neither half has enough cells; a
carriage return at its very end is taken for a part of the line end and lost.
-/
import LyricScore.Table.Dump
import LyricScore.Proofs.Sequence
import LyricScore.Proofs.Text.Numeral
import LyricScore.Proofs.Text.Split

namespace LyricScore

open Text

-- ======================================================== characters

/-- The characters that end a line and are not escaped. -/
def rawBreaks : List Char :=
  ['\r', '\x0b', '\x0c', '\x1c', '\x1d', '\x1e', '\u0085', '\u2028', '\u2029']

/-- A line end is a line feed, which is escaped, or one of those that are not. -/
theorem isLineEnd_iff {c : Char} : isLineEnd c = true ↔ c = '\n' ∨ c ∈ rawBreaks := by
  have hcode : ∀ d : Char, c = d ↔ c.toNat = d.toNat := fun d => Char.toNat_inj.symm
  simp only [rawBreaks, List.mem_cons, List.not_mem_nil, or_false, hcode, isLineEnd,
    Bool.or_eq_true, Bool.and_eq_true, decide_eq_true_eq, beq_iff_eq, Char.reduceToNat]
  omega

/-- The printable ASCII characters. -/
def isGraphic (c : Char) : Bool :=
  32 ≤ c.toNat && c.toNat ≤ 126

/-- Printable characters are written as they are and end no line. -/
theorem not_break_of_isGraphic {c : Char} (h : isGraphic c = true) :
    c ≠ '\t' ∧ c ≠ '\n' ∧ c ∉ rawBreaks := by
  simp only [isGraphic, Bool.and_eq_true, decide_eq_true_eq] at h
  refine ⟨?_, ?_, fun hc => ?_⟩
  · rintro rfl
    exact absurd h.1 (by decide)
  · rintro rfl
    exact absurd h.1 (by decide)
  · have hend := isLineEnd_iff.2 (Or.inr hc)
    simp only [isLineEnd, Bool.or_eq_true, Bool.and_eq_true, decide_eq_true_eq, beq_iff_eq] at hend
    omega

theorem isGraphic_of_isDigit {c : Char} (h : c.isDigit = true) : isGraphic c = true := by
  simp only [Char.isDigit, Bool.and_eq_true, decide_eq_true_eq] at h
  have hlow := UInt32.le_iff_toNat_le.1 h.1
  have hhigh := UInt32.le_iff_toNat_le.1 h.2
  simp only [isGraphic, Bool.and_eq_true, decide_eq_true_eq]
  exact ⟨Nat.le_trans (by decide) hlow, Nat.le_trans hhigh (by decide)⟩

/-- A fraction is written with digits, a sign and a stroke. -/
theorem mem_ratText {q : Rat} {c : Char} (h : c ∈ (ratText q).toList) :
    c.isDigit = true ∨ c = '-' ∨ c = '/' := by
  have hnumber : ∀ n : Int, c ∈ (decimal n).toList → c.isDigit = true ∨ c = '-' ∨ c = '/' :=
    fun n hc => (mem_decimal hc).imp_right Or.inl
  unfold ratText at h
  split at h
  · exact hnumber _ h
  · rw [String.toList_append, String.toList_append] at h
    rcases List.mem_append.1 h with h | h
    · rcases List.mem_append.1 h with h | h
      · exact hnumber _ h
      · exact Or.inr (Or.inr (List.mem_singleton.1 h))
    · exact hnumber _ h

theorem graphic_decimal {n : Int} {c : Char} (h : c ∈ (decimal n).toList) : isGraphic c = true := by
  rcases mem_decimal h with hdigit | rfl
  · exact isGraphic_of_isDigit hdigit
  · decide

theorem graphic_ratText {q : Rat} {c : Char} (h : c ∈ (ratText q).toList) : isGraphic c = true := by
  rcases mem_ratText h with hdigit | rfl | rfl
  · exact isGraphic_of_isDigit hdigit
  · decide
  · decide

-- =========================================================== escapes

theorem escapeCellChar_of_break {c : Char} (h : c ∈ rawBreaks) : escapeCellChar c = [c] :=
  forall_mem_of_all (p := fun c => escapeCellChar c = [c]) (by decide) c h

theorem escapeCellChar_ne_nil (c : Char) : escapeCellChar c ≠ [] := by
  unfold escapeCellChar
  split
  · simp
  split
  · simp
  split <;> simp

/-- A written character is neither a tab nor a line feed, and ends a line only if it stands for
itself. -/
theorem mem_escapeCellChar {c d : Char} (h : d ∈ escapeCellChar c) :
    d ≠ '\t' ∧ d ≠ '\n' ∧ (d ∈ rawBreaks → d = c) := by
  have hescaped : ∀ mark, isGraphic mark = true → d ∈ [backslash, mark] →
      d ≠ '\t' ∧ d ≠ '\n' ∧ (d ∈ rawBreaks → d = c) := by
    intro mark hmark hd
    have hgraphic : isGraphic d = true := by
      rcases List.mem_cons.1 hd with rfl | hd
      · decide
      · rwa [List.mem_singleton.1 hd]
    obtain ⟨htab, hfeed, hbreak⟩ := not_break_of_isGraphic hgraphic
    exact ⟨htab, hfeed, fun hd => absurd hd hbreak⟩
  unfold escapeCellChar at h
  split at h
  · exact hescaped _ (by decide) h
  split at h
  · exact hescaped _ (by decide) h
  split at h
  · exact hescaped _ (by decide) h
  · next _ htab hfeed =>
    obtain rfl := List.mem_singleton.1 h
    exact ⟨htab, hfeed, fun _ => rfl⟩

theorem unescapeCell_append (c : Char) (rest : List Char) :
    unescapeCell (escapeCellChar c ++ rest) = c :: unescapeCell rest := by
  unfold escapeCellChar
  split
  · next h =>
    subst h
    rfl
  split
  · next h =>
    subst h
    rfl
  split
  · next h =>
    subst h
    rfl
  · next hbackslash _ _ =>
    rw [List.singleton_append, unescapeCell.eq_def]
    exact if_neg hbackslash

theorem unescapeCell_escape (cs : List Char) : unescapeCell (cs.flatMap escapeCellChar) = cs := by
  induction cs with
  | nil => rfl
  | cons c cs ih => rw [List.flatMap_cons, unescapeCell_append, ih]

/-- An escaped text is never taken for an empty cell. -/
theorem escape_ne_emptyCell (cs : List Char) : cs.flatMap escapeCellChar ≠ emptyCell := by
  intro h
  have hread := unescapeCell_escape cs
  rw [h] at hread
  obtain rfl : ['N'] = cs := hread
  exact absurd h (by decide)

/-- A line end at the end of an escaped text is the end of the text. -/
theorem exists_concat_of_escape {cs written : List Char} {c : Char} (hc : c ∈ rawBreaks)
    (h : cs.flatMap escapeCellChar = written ++ [c]) :
    ∃ front, cs = front ++ [c] ∧ front.flatMap escapeCellChar = written := by
  rcases List.eq_nil_or_concat cs with rfl | ⟨front, d, rfl⟩
  · simp at h
  · rw [List.concat_eq_append, List.flatMap_append, List.flatMap_singleton] at h
    have hlast : (escapeCellChar d).getLast? = some c := by
      have hsome := congrArg List.getLast? h
      rw [List.getLast?_append, List.getLast?_concat,
        List.getLast?_eq_some_getLast (escapeCellChar_ne_nil d), Option.some_or] at hsome
      rw [List.getLast?_eq_some_getLast (escapeCellChar_ne_nil d), hsome]
    obtain rfl := (mem_escapeCellChar (List.mem_of_getLast? hlast)).2.2 hc
    rw [escapeCellChar_of_break hc] at h
    exact ⟨front, List.concat_eq_append, List.append_cancel_right h⟩

-- ============================================================= cells

/-- The sorts of values that cells hold. -/
inductive Domain where
  | source
  | kind
  | accidental
  | integer
  | fraction
  | text

/-- The sort of the values of a column. -/
def Column.domain : Column → Domain
  | .source => .source
  | .kind => .kind
  | .accidental => .accidental
  | .block | .measure | .beat | .subdivision | .shift | .octave | .pickup => .integer
  | .duration | .unit | .declared => .fraction
  | .raw | .letter | .meter | .directive | .key | .noteText | .draftText | .finalText => .text

/-- The sort of the value in a cell. -/
def Cell.domain? : Cell → Option Domain
  | .empty => none
  | .source _ => some .source
  | .kind _ => some .kind
  | .accidental _ => some .accidental
  | .integer _ => some .integer
  | .fraction _ => some .fraction
  | .text _ => some .text

/-- A cell is empty or holds a value of a sort. -/
def Cell.IsOf (cell : Cell) (domain : Domain) : Prop :=
  cell.domain? = none ∨ cell.domain? = some domain

namespace Cell

variable {cell : Cell}

theorem isOf_ofInteger? (n : Option Int) : (ofInteger? n).IsOf .integer := by
  cases n with
  | none => exact Or.inl rfl
  | some n => exact Or.inr rfl

theorem isOf_ofFraction? (q : Option Rat) : (ofFraction? q).IsOf .fraction := by
  cases q with
  | none => exact Or.inl rfl
  | some q => exact Or.inr rfl

theorem isOf_ofText? (s : Option String) : (ofText? s).IsOf .text := by
  cases s with
  | none => exact Or.inl rfl
  | some s => exact Or.inr rfl

theorem isOf_ofAccidental? (a : Option Accidental) : (ofAccidental? a).IsOf .accidental := by
  cases a with
  | none => exact Or.inl rfl
  | some a => exact Or.inr rfl

theorem ofInteger?_integer? (h : cell.IsOf .integer) : ofInteger? cell.integer? = cell := by
  cases cell with
  | empty | integer _ => rfl
  | _ => simp [IsOf, domain?] at h

theorem ofFraction?_fraction? (h : cell.IsOf .fraction) : ofFraction? cell.fraction? = cell := by
  cases cell with
  | empty | fraction _ => rfl
  | _ => simp [IsOf, domain?] at h

theorem ofText?_text? (h : cell.IsOf .text) : ofText? cell.text? = cell := by
  cases cell with
  | empty | text _ => rfl
  | _ => simp [IsOf, domain?] at h

theorem ofAccidental?_accidental? (h : cell.IsOf .accidental) :
    ofAccidental? cell.accidental? = cell := by
  cases cell with
  | empty | accidental _ => rfl
  | _ => simp [IsOf, domain?] at h

theorem eq_of_source? {value : Source} (h : cell.source? = some value) : cell = .source value := by
  cases cell <;> cases h
  rfl

theorem eq_of_kind? {value : Kind} (h : cell.kind? = some value) : cell = .kind value := by
  cases cell <;> cases h
  rfl

theorem integer?_ofInteger? (n : Option Int) : (ofInteger? n).integer? = n := by
  cases n <;> rfl

theorem fraction?_ofFraction? (q : Option Rat) : (ofFraction? q).fraction? = q := by
  cases q <;> rfl

theorem text?_ofText? (s : Option String) : (ofText? s).text? = s := by
  cases s <;> rfl

theorem accidental?_ofAccidental? (a : Option Accidental) : (ofAccidental? a).accidental? = a := by
  cases a <;> rfl

end Cell

/-- Whether the numbers in a cell have at most three digits. -/
def Cell.isShort : Cell → Bool
  | .integer n => n.natAbs < 1000
  | .fraction q => q.num.natAbs < 1000 && q.den < 1000
  | _ => true

theorem Cell.canWrite_of_isShort {cell : Cell} (h : cell.isShort = true) :
    cell.canWrite = true := by
  have hpow : ∀ k, 3 ≤ k → Nat.pow 10 3 ≤ Nat.pow 10 k := fun k hk =>
    Nat.pow_le_pow_right (by decide) hk
  have hfits : ∀ n : Int, n.natAbs < Nat.pow 10 3 → fits n = true := fun n hn =>
    decide_eq_true (Nat.lt_of_lt_of_le hn (hpow maxDigits (by decide)))
  cases cell with
  | integer n => exact hfits n (of_decide_eq_true h)
  | fraction q =>
      obtain ⟨hnum, hden⟩ := Bool.and_eq_true_iff.1 h
      show (fits q.num && fits q.den) = true
      rw [hfits q.num (of_decide_eq_true hnum), hfits q.den (of_decide_eq_true hden)]
      rfl
  | _ => rfl

/-- Every cell of a row is of the sort of its column. -/
theorem Row.isOf_record (r : Row) (column : Column) : (r.record column).IsOf column.domain := by
  cases column with
  | source | kind | block | shift | raw | directive => exact Or.inr rfl
  | accidental => exact Cell.isOf_ofAccidental? _
  | measure | beat | subdivision | octave | pickup => exact Cell.isOf_ofInteger? _
  | duration | unit | declared => exact Cell.isOf_ofFraction? _
  | letter | meter | key | noteText | draftText | finalText => exact Cell.isOf_ofText? _

/-- The characters of a cell: no tab, no line feed, and other line ends only from its text. -/
theorem mem_write {cell : Cell} {c : Char} (h : c ∈ cell.write) :
    c ≠ '\t' ∧ c ≠ '\n' ∧ (c ∈ rawBreaks → ∃ text, cell = .text text ∧ c ∈ text.toList) := by
  have hplain : isGraphic c = true →
      c ≠ '\t' ∧ c ≠ '\n' ∧ (c ∈ rawBreaks → ∃ text, cell = .text text ∧ c ∈ text.toList) := by
    intro hgraphic
    obtain ⟨htab, hfeed, hbreak⟩ := not_break_of_isGraphic hgraphic
    exact ⟨htab, hfeed, fun hc => absurd hc hbreak⟩
  have hname : ∀ name : String, name.toList.all isGraphic = true → c ∈ name.toList →
      isGraphic c = true := fun name hall hc => List.all_eq_true.1 hall c hc
  cases cell with
  | empty => exact hplain (hname "\\N" (by decide) h)
  | source value => exact hplain (hname value.name (by cases value <;> decide) h)
  | kind value => exact hplain (hname value.name (by cases value <;> decide) h)
  | accidental value => exact hplain (hname value.name (by cases value <;> decide) h)
  | integer value => exact hplain (graphic_decimal h)
  | fraction value => exact hplain (graphic_ratText h)
  | text value =>
      obtain ⟨d, hd, hc⟩ := List.mem_flatMap.1 h
      obtain ⟨htab, hfeed, hbreak⟩ := mem_escapeCellChar hc
      exact ⟨htab, hfeed, fun hraw => ⟨value, rfl, hbreak hraw ▸ hd⟩⟩

/-- A cell that is not empty is not written like one. -/
theorem write_ne_emptyCell {cell : Cell} (h : cell ≠ .empty) : cell.write ≠ emptyCell := by
  have hnumber : ∀ text : List Char, backslash ∉ text → text ≠ emptyCell := by
    rintro text hnot rfl
    exact hnot List.mem_cons_self
  cases cell with
  | empty => exact absurd rfl h
  | source value => cases value <;> decide
  | kind value => cases value <;> decide
  | accidental value => cases value <;> decide
  | integer value => exact hnumber _ fun hc => absurd (mem_decimal hc) (by decide)
  | fraction value => exact hnumber _ fun hc => absurd (mem_ratText hc) (by decide)
  | text value => exact escape_ne_emptyCell value.toList

theorem Column.readFilled_integer {column : Column} (h : column.domain = .integer)
    (text : List Char) :
    column.readFilled text = (readInteger (String.ofList text)).map .integer := by
  cases column <;> cases h <;> rfl

theorem Column.readFilled_fraction {column : Column} (h : column.domain = .fraction)
    (text : List Char) :
    column.readFilled text = (readFraction (String.ofList text)).map .fraction := by
  cases column <;> cases h <;> rfl

theorem Column.readFilled_text {column : Column} (h : column.domain = .text) (text : List Char) :
    column.readFilled text = .ok (.text (String.ofList (unescapeCell text))) := by
  cases column <;> cases h <;> rfl

/-- A cell is read back in a column of its sort, if its numbers are short enough. -/
theorem Column.read_write {column : Column} {cell : Cell} (h : cell.IsOf column.domain)
    (hwrite : cell.canWrite = true) : column.read cell.write = .ok cell := by
  by_cases hempty : cell = .empty
  · subst hempty
    exact if_pos rfl
  unfold Column.read
  rw [if_neg (write_ne_emptyCell hempty)]
  have hdomain : cell.domain? = some column.domain := by
    refine h.resolve_left fun hnone => hempty ?_
    cases cell with
    | empty => rfl
    | _ => cases hnone
  cases cell with
  | empty => exact absurd rfl hempty
  | source value =>
      cases column with
      | source => cases value <;> rfl
      | _ => cases hdomain
  | kind value =>
      cases column with
      | kind => cases value <;> rfl
      | _ => cases hdomain
  | accidental value =>
      cases column with
      | accidental => cases value <;> rfl
      | _ => cases hdomain
  | integer value =>
      rw [readFilled_integer (Option.some.inj hdomain).symm, Cell.write, String.ofList_toList,
        readInteger_decimal hwrite]
      rfl
  | fraction value =>
      rw [readFilled_fraction (Option.some.inj hdomain).symm, Cell.write, String.ofList_toList,
        readFraction_ratText hwrite]
      rfl
  | text value =>
      rw [readFilled_text (Option.some.inj hdomain).symm, Cell.write, unescapeCell_escape,
        String.ofList_toList]

-- ============================================================= lines

/-- A record whose cells can be written, each of the sort of its column. -/
def Record.Written (r : Record) : Prop :=
  ∀ column, (r column).IsOf column.domain ∧ (r column).canWrite = true

/-- A text without a line end that is not escaped. -/
def IsUnbroken (text : String) : Prop :=
  ∀ c ∈ text.toList, c ∉ rawBreaks

/-- A record whose texts have no line end that is not escaped. -/
def Record.Unbroken (r : Record) : Prop :=
  ∀ column text, r column = .text text → IsUnbroken text

theorem Column.mem_all (column : Column) : column ∈ Column.all := by
  cases column <;> decide

/-- A table of short numbers is written. -/
theorem Table.canWrite_of_short {t : Table}
    (h : (t.all fun r => Column.all.all fun column => (r.record column).isShort) = true) :
    ∀ r ∈ t, ∀ column, (r.record column).canWrite = true := by
  intro r hr column
  have hrow := List.all_eq_true.1 h r hr
  exact Cell.canWrite_of_isShort (List.all_eq_true.1 hrow column (Column.mem_all column))

/-- A line falls into its cells. -/
theorem splitWhere_line (r : Record) :
    splitWhere (· == '\t') r.line = Column.all.map fun c => (r c).write := by
  refine splitWhere_joinWith rfl (by simp [Column.all]) fun w hw c hc => ?_
  obtain ⟨column, -, rfl⟩ := List.mem_map.1 hw
  exact beq_false_of_ne (mem_write hc).1

/-- The cells of a record stand in its line. -/
theorem mem_line_of_mem_write {r : Record} {column : Column} {c : Char}
    (h : c ∈ (r column).write) : c ∈ r.line := by
  have hpart : (r column).write ∈ splitWhere (· == '\t') r.line := by
    rw [splitWhere_line]
    exact List.mem_map_of_mem (Column.mem_all column)
  exact ((splitWhere_parts _ r.line).1 _ hpart).1.subset h

/-- A line has no line feed in it. -/
theorem not_mem_line (r : Record) : '\n' ∉ r.line := by
  intro h
  rcases mem_joinWith h with h | ⟨w, hw, hc⟩
  · exact absurd (List.mem_singleton.1 h) (by decide)
  · obtain ⟨column, -, rfl⟩ := List.mem_map.1 hw
    exact (mem_write hc).2.1 rfl

/-- The line of a record is one line just if the record is unbroken. -/
theorem unbroken_iff {r : Record} : r.Unbroken ↔ ∀ c ∈ r.line, isLineEnd c = false := by
  constructor
  · intro h c hc
    rw [← Bool.not_eq_true]
    intro hend
    have hraw : c ∈ rawBreaks := (isLineEnd_iff.1 hend).resolve_left fun heq =>
      not_mem_line r (heq ▸ hc)
    rcases mem_joinWith hc with hc | ⟨w, hw, hc⟩
    · obtain rfl := List.mem_singleton.1 hc
      exact absurd hraw (by decide)
    · obtain ⟨column, -, rfl⟩ := List.mem_map.1 hw
      obtain ⟨text, htext, hmem⟩ := (mem_write hc).2.2 hraw
      exact h column text htext c hmem hraw
  · intro h column text htext c hc hraw
    have hwrite : c ∈ (r column).write := by
      rw [htext]
      refine List.mem_flatMap.2 ⟨c, hc, ?_⟩
      rw [escapeCellChar_of_break hraw]
      exact List.mem_singleton_self c
    have hend := h c (mem_line_of_mem_write hwrite)
    rw [isLineEnd_iff.2 (Or.inr hraw)] at hend
    cases hend

-- =========================================================== reading

theorem recordOf_all (r : Record) : recordOf (Column.all.map fun c => (c, r c)) = r := by
  funext column
  cases column <;> rfl

theorem recordOf_concat (cells : List (Column × Cell)) (column : Column) (cell : Cell) :
    recordOf (cells ++ [(column, cell)]) column = cell := by
  unfold recordOf
  rw [List.filter_append, List.filter_cons_of_pos (by simp), List.filter_nil, List.getLast?_concat]

/-- When a line is read: it has a cell for each column, and each of them is read. -/
theorem readLine_eq_ok {line : List Char} {r : Record} :
    readLine Column.all line = .ok r
      ↔ (splitWhere (· == '\t') line).length = Column.all.length
        ∧ ∃ cells, (Column.all.zip (splitWhere (· == '\t') line)).mapM
            (fun c => (c.1.read c.2).map fun cell => (c.1, cell)) = .ok cells
          ∧ recordOf cells = r := by
  unfold readLine
  by_cases hlength : (splitWhere (· == '\t') line).length ≠ Column.all.length
  · rw [if_pos hlength]
    refine ⟨fun h => ?_, fun h => absurd h.1 hlength⟩
    cases h
  · rw [if_neg hlength]
    refine ⟨fun h => ⟨Decidable.not_not.1 hlength, ?_⟩, fun h => ?_⟩
    · obtain ⟨cells, hcells, hr⟩ := bind_eq_ok.1 h
      exact ⟨cells, hcells, Except.ok.inj hr⟩
    · obtain ⟨-, cells, hcells, rfl⟩ := h
      exact bind_eq_ok.2 ⟨cells, hcells, rfl⟩

/-- The line of a record is read back. -/
theorem readLine_line {r : Record} (h : r.Written) : readLine Column.all r.line = .ok r := by
  have hcells : (Column.all.zip (Column.all.map fun c => (r c).write)).mapM
      (fun c => (c.1.read c.2).map fun cell => (c.1, cell))
        = .ok (Column.all.map fun c => (c, r c)) := by
    rw [mapM_eq_ok, List.zip_eq_zipWith, List.zipWith_map_right, List.zipWith_self, List.map_map,
      List.map_map]
    refine List.map_congr_left fun column _ => ?_
    show ((column.read (r column).write).map fun cell => (column, cell)) = .ok (column, r column)
    rw [Column.read_write (h column).1 (h column).2]
    rfl
  refine readLine_eq_ok.2 ⟨?_, Column.all.map fun c => (c, r c), ?_, recordOf_all r⟩
  · rw [splitWhere_line, List.length_map]
  · rw [splitWhere_line, hcells]

theorem Column.all_eq_concat : Column.all = Column.all.dropLast ++ [Column.finalText] := by
  rfl

/-- The last cell of a line that is read is its final text. -/
theorem read_last_of_readLine {line last : List Char} {parts : List (List Char)} {r : Record}
    (h : readLine Column.all line = .ok r)
    (hparts : splitWhere (· == '\t') line = parts ++ [last]) :
    Column.finalText.read last = .ok (r .finalText) := by
  obtain ⟨hlength, cells, hcells, rfl⟩ := readLine_eq_ok.1 h
  have hfront : Column.all.dropLast.length = parts.length := by
    rw [hparts, List.length_append, List.length_singleton] at hlength
    rw [List.length_dropLast, ← hlength]
    omega
  rw [hparts, Column.all_eq_concat, List.zip_append hfront, mapM_eq_ok, List.map_append] at hcells
  obtain ⟨front, rest, rfl, -, hrest⟩ := List.map_eq_append_iff.1 hcells.symm
  obtain ⟨cell, rfl⟩ : ∃ cell, rest = [cell] := by
    have hone := congrArg List.length hrest
    rw [List.length_map] at hone
    exact List.length_eq_one_iff.1 hone
  obtain ⟨value, hvalue, rfl⟩ := map_eq_ok.1 (List.cons.inj hrest).1.symm
  rw [recordOf_concat]
  exact hvalue

/-- A line that lost a carriage return at its end is read as another record. -/
theorem readLine_ne_of_return {r : Record} (h : (r .finalText).IsOf .text) {line : List Char}
    (hline : r.line = line ++ ['\r']) : readLine Column.all line ≠ .ok r := by
  intro hread
  obtain ⟨parts, last, hparts, hconcat⟩ :=
    exists_splitWhere_concat (p := (· == '\t')) (a := '\r') (by decide) line
  have hfinal := read_last_of_readLine hread hparts
  have hwrite : (r .finalText).write = last ++ ['\r'] := by
    rw [← hline, splitWhere_line, Column.all_eq_concat, List.map_append] at hconcat
    exact (List.cons.inj (List.append_inj' hconcat rfl).2).1
  rw [← Cell.ofText?_text? h] at hwrite hfinal
  cases htext : (r .finalText).text? with
  | none =>
      rw [htext] at hwrite
      have hends := congrArg List.getLast? hwrite
      rw [List.getLast?_concat] at hends
      exact absurd hends (by decide)
  | some value =>
      rw [htext] at hwrite hfinal
      obtain ⟨front, hfront, rfl⟩ := exists_concat_of_escape (by decide) hwrite
      unfold Column.read at hfinal
      rw [if_neg (escape_ne_emptyCell front), Column.readFilled_text rfl,
        unescapeCell_escape] at hfinal
      have hsame : String.ofList front = value := Cell.text.inj (Except.ok.inj hfinal)
      rw [← hsame, String.toList_ofList] at hfront
      exact absurd (congrArg List.length hfront) (by simp)

/-- A line that is cut in two is not read: one of the two has too few cells. -/
theorem not_readLine_cut {r : Record} {line next behind : List Char} {c : Char}
    (hline : r.line = line ++ c :: behind) (hc : isLineEnd c = true) (hnext : next <+: behind)
    {first second : Record} (hfirst : readLine Column.all line = .ok first) :
    readLine Column.all next ≠ .ok second := by
  intro hsecond
  have hone : Column.all.length ≠ 1 := by decide
  have htab : (c == '\t') = false := beq_false_of_ne fun heq => by
    subst heq
    exact absurd hc (by decide)
  have hcells := congrArg List.length (splitWhere_line r)
  have hbefore := (readLine_eq_ok.1 hfirst).1
  have hbehind := (readLine_eq_ok.1 hsecond).1
  have hle : next.countP (· == '\t') ≤ behind.countP (· == '\t') := hnext.sublist.countP_le
  rw [length_splitWhere, hline, List.countP_append, List.countP_cons_of_neg (by simp [htab]),
    List.length_map] at hcells
  rw [length_splitWhere] at hbefore hbehind
  omega

/-- The rows of a text are read back just if none of them is broken. -/
theorem mapM_readLine_iff {records : List Record} (h : ∀ r ∈ records, r.Written) :
    (lines (records.flatMap fun r => r.line ++ ['\n'])).mapM (readLine Column.all) = .ok records
      ↔ ∀ r ∈ records, r.Unbroken := by
  induction records with
  | nil => exact ⟨fun _ r hr => absurd hr List.not_mem_nil, fun _ => rfl⟩
  | cons r records ih =>
      obtain ⟨hr, hrecords⟩ := List.forall_mem_cons.1 h
      rw [List.flatMap_cons, List.append_assoc, List.singleton_append, List.forall_mem_cons,
        ← ih hrecords, unbroken_iff, mapM_eq_ok, mapM_eq_ok]
      constructor
      · intro hread
        rcases lines_append_feed_cases (not_mem_line r)
            (records.flatMap fun r => r.line ++ ['\n']) with hwhole | hreturn | hcut
        · rw [lines_append_feed hwhole] at hread
          exact ⟨hwhole, (List.cons.inj hread).2⟩
        · obtain ⟨line, hline, hlines⟩ := hreturn
          rw [hlines] at hread
          exact absurd (List.cons.inj hread).1 (readLine_ne_of_return (hr .finalText).1 hline)
        · obtain ⟨line, c, behind, next, more, hline, hc, hnext, hlines⟩ := hcut
          rw [hlines] at hread
          obtain ⟨hfirst, hrest⟩ := List.cons.inj hread
          cases records with
          | nil => cases hrest
          | cons second records =>
              exact absurd (List.cons.inj hrest).1 (not_readLine_cut hline hc hnext hfirst)
      · rintro ⟨hwhole, hrest⟩
        rw [lines_append_feed hwhole, List.map_cons, readLine_line hr, hrest]
        rfl

theorem readHead_headLine : readHead headLine = .ok Column.all := by
  rfl

/-- A written text opens with its head line, and every other line is read with all columns. -/
theorem readRecords_dumpText (records : List Record) :
    readRecords (dumpText records)
      = (lines (records.flatMap fun r => r.line ++ ['\n'])).mapM (readLine Column.all) := by
  have hhead : ∀ c ∈ headLine, isLineEnd c = false := by
    intro c hc
    rcases mem_joinWith hc with hc | ⟨w, hw, hc⟩
    · obtain rfl := List.mem_singleton.1 hc
      rfl
    · obtain ⟨column, -, rfl⟩ := List.mem_map.1 hw
      have hname : ∀ c ∈ column.name.toList, isLineEnd c = false := by
        cases column <;> exact forall_mem_of_all (by decide)
      exact hname c hc
  have hlines : lines (dumpText records).toList
      = headLine :: lines (records.flatMap fun r => r.line ++ ['\n']) := by
    unfold dumpText
    rw [String.toList_ofList, List.flatMap_cons, List.append_assoc, List.singleton_append,
      lines_append_feed hhead, List.flatMap_map]
  unfold readRecords
  rw [hlines]
  dsimp only
  rw [readHead_headLine]
  rfl

-- ============================================================== rows

/-- What is read in a column is of the column's sort. -/
theorem Column.isOf_of_read {column : Column} {text : List Char} {cell : Cell}
    (h : column.read text = .ok cell) : cell.IsOf column.domain := by
  have hnamed : ∀ {α : Type} {find : String → Option α} {toCell : α → Cell} {name : String},
      namedCell find toCell name = .ok cell → ∃ value, cell = toCell value := by
    intro α find toCell name hname
    unfold namedCell at hname
    split at hname
    · next value _ => exact ⟨value, (Except.ok.inj hname).symm⟩
    · cases hname
  unfold Column.read at h
  split at h
  · obtain rfl := Except.ok.inj h
    exact Or.inl rfl
  cases hdomain : column.domain with
  | integer =>
      rw [readFilled_integer hdomain] at h
      obtain ⟨n, -, rfl⟩ := map_eq_ok.1 h
      exact Or.inr rfl
  | fraction =>
      rw [readFilled_fraction hdomain] at h
      obtain ⟨q, -, rfl⟩ := map_eq_ok.1 h
      exact Or.inr rfl
  | text =>
      rw [readFilled_text hdomain] at h
      obtain rfl := Except.ok.inj h
      exact Or.inr rfl
  | source | kind | accidental =>
      cases column <;> cases hdomain
      unfold Column.readFilled at h
      obtain ⟨value, rfl⟩ := hnamed h
      exact Or.inr rfl

theorem Column.isOf_missing (column : Column) : column.missing.IsOf column.domain := by
  cases column with
  | raw | directive | shift => exact Or.inr rfl
  | _ => exact Or.inl rfl

/-- What is read from a line is in each column of the column's sort. -/
theorem isOf_of_readLine {line : List Char} {r : Record} (h : readLine Column.all line = .ok r)
    (column : Column) : (r column).IsOf column.domain := by
  obtain ⟨-, cells, hcells, rfl⟩ := readLine_eq_ok.1 h
  unfold recordOf
  split
  · next c hc =>
    obtain ⟨hmem, heq⟩ := List.mem_filter.1 (List.mem_of_getLast? hc)
    obtain ⟨part, -, hpart⟩ := exists_of_mapM_eq_ok hcells hmem
    obtain ⟨cell, hread, rfl⟩ := map_eq_ok.1 hpart
    obtain rfl := of_decide_eq_true heq
    exact Column.isOf_of_read hread
  · exact column.isOf_missing

/-- Every record of the full head line is read with the sorts of its columns. -/
theorem isOf_of_readRecords {records found : List Record}
    (h : readRecords (dumpText records) = .ok found) :
    ∀ r ∈ found, ∀ column, (r column).IsOf column.domain := by
  rw [readRecords_dumpText] at h
  intro r hr column
  obtain ⟨line, -, hline⟩ := exists_of_mapM_eq_ok h hr
  exact isOf_of_readLine hline column

/-- The row of a row's record is the row. -/
theorem Row.row?_record (r : Row) : Record.row? r.record = some r := by
  simp only [Record.row?, Row.record, Cell.integer?_ofInteger?, Cell.fraction?_ofFraction?,
    Cell.text?_ofText?, Cell.accidental?_ofAccidental?]
  rfl

/-- A record whose cells are of the sorts of their columns is the record of its row. -/
theorem Record.record_of_row? {r : Record} {row : Row}
    (h : ∀ column, (r column).IsOf column.domain) (hrow : r.row? = some row) : row.record = r := by
  simp only [Record.row?, Option.bind_eq_bind, Option.bind_eq_some_iff, Option.pure_def,
    Option.some.injEq] at hrow
  obtain ⟨source, hsource, block, hblock, kind, hkind, raw, hraw, shift, hshift, directive,
    hdirective, rfl⟩ := hrow
  have hinteger : ∀ {column n}, (r column).integer? = some n → (r column).IsOf .integer →
      .integer n = r column := fun hn hof =>
    (congrArg Cell.ofInteger? hn).symm.trans (Cell.ofInteger?_integer? hof)
  have htext : ∀ {column s}, (r column).text? = some s → (r column).IsOf .text →
      .text s = r column := fun hs hof =>
    (congrArg Cell.ofText? hs).symm.trans (Cell.ofText?_text? hof)
  funext column
  cases column with
  | source => exact (Cell.eq_of_source? hsource).symm
  | kind => exact (Cell.eq_of_kind? hkind).symm
  | block => exact hinteger hblock (h _)
  | shift => exact hinteger hshift (h _)
  | raw => exact htext hraw (h _)
  | directive => exact htext hdirective (h _)
  | accidental => exact Cell.ofAccidental?_accidental? (h _)
  | measure | beat | subdivision | octave | pickup => exact Cell.ofInteger?_integer? (h _)
  | duration | unit | declared => exact Cell.ofFraction?_fraction? (h _)
  | letter | meter | key | noteText | draftText | finalText => exact Cell.ofText?_text? (h _)

/-- A record is read as a row just if it is the record of that row. -/
theorem Record.toRow_eq_ok {r : Record} {row : Row} (h : ∀ column, (r column).IsOf column.domain) :
    r.toRow = .ok row ↔ r = row.record := by
  constructor
  · intro hrow
    refine (Record.record_of_row? h ?_).symm
    unfold Record.toRow at hrow
    cases hfound : r.row? with
    | none =>
        rw [hfound] at hrow
        cases hrow
    | some found =>
        rw [hfound] at hrow
        exact congrArg some (Except.ok.inj hrow)
  · intro hrecord
    unfold Record.toRow
    rw [hrecord, Row.row?_record]

/-- Records are read as a table just if they are the records of its rows. -/
theorem mapM_toRow_eq_ok {records : List Record} {t : Table}
    (h : ∀ r ∈ records, ∀ column, (r column).IsOf column.domain) :
    records.mapM Record.toRow = .ok t ↔ records = t.map Row.record := by
  rw [mapM_eq_ok]
  induction records generalizing t with
  | nil => cases t <;> simp
  | cons r records ih =>
      obtain ⟨hr, hrecords⟩ := List.forall_mem_cons.1 h
      cases t with
      | nil => simp
      | cons row t =>
          rw [List.map_cons, List.map_cons, List.map_cons, List.cons.injEq, List.cons.injEq,
            Record.toRow_eq_ok hr, ih hrecords]

-- ======================================================== round trips

/-- A table whose numbers are short enough is written. -/
theorem Table.dump_eq_ok {t : Table}
    (h : ∀ r ∈ t, ∀ column, (r.record column).canWrite = true) :
    t.dump = .ok (dumpText (t.map Row.record)) := by
  refine if_pos (List.all_eq_true.2 fun record hrecord => ?_)
  obtain ⟨r, hr, rfl⟩ := List.mem_map.1 hrecord
  exact List.all_eq_true.2 fun column _ => h r hr column

/-- What is read from the text of a table is that table just if no row is broken. -/
theorem Table.read_dumpText_iff {t : Table}
    (h : ∀ r ∈ t, ∀ column, (r.record column).canWrite = true) :
    Table.read (dumpText (t.map Row.record)) = .ok t ↔ ∀ r ∈ t, r.record.Unbroken := by
  have hwritten : ∀ record ∈ t.map Row.record, Record.Written record := by
    intro record hrecord
    obtain ⟨r, hr, rfl⟩ := List.mem_map.1 hrecord
    exact fun column => ⟨r.isOf_record column, h r hr column⟩
  rw [← List.forall_mem_map, ← mapM_readLine_iff hwritten, ← readRecords_dumpText]
  unfold Table.read
  rw [bind_eq_ok]
  constructor
  · rintro ⟨records, hrecords, hrows⟩
    rw [hrecords, (mapM_toRow_eq_ok (isOf_of_readRecords hrecords)).1 hrows]
  · intro hrecords
    exact ⟨_, hrecords, (mapM_toRow_eq_ok (isOf_of_readRecords hrecords)).2 rfl⟩

/-- A table whose numbers are short enough is written, and it is read back from its text just if
none of its texts holds a line end that is not escaped. -/
theorem Table.read_dump_iff {t : Table}
    (h : ∀ r ∈ t, ∀ column, (r.record column).canWrite = true) :
    ∃ text, t.dump = .ok text
      ∧ (Table.read text = .ok t
          ↔ ∀ r ∈ t, ∀ column value, r.record column = .text value →
              ∀ c ∈ value.toList, c ∉ rawBreaks) :=
  ⟨_, Table.dump_eq_ok h, Table.read_dumpText_iff h⟩

/-- A row with a backslash, a tab, a line feed, the mark of an empty cell, an empty text and empty
cells. -/
def escapedRow : Row :=
  { source := .lyric, block := -3, kind := .syllable, raw := "a\\b\tc\nd", letter := some "\\N"
    duration := some (-2 / 3), meter := some "", key := some "\\n" }

/-- A row that ends with a carriage return. -/
def returnedRow : Row :=
  { escapedRow with finalText := some "C\x0d" }

theorem Table.read_dump_iff_escapedRow :
    (∃ text, Table.dump [escapedRow] = .ok text ∧ Table.read text = .ok [escapedRow])
      ∧ ∃ text, Table.dump [returnedRow] = .ok text ∧ Table.read text ≠ .ok [returnedRow] := by
  have hshort : ([escapedRow, returnedRow].all fun r => Column.all.all fun column =>
      (r.record column).isShort) = true := by decide +kernel
  obtain ⟨hescaped, hreturned⟩ := List.forall_mem_cons.1 (Table.canWrite_of_short hshort)
  obtain ⟨text, htext, hread⟩ := Table.read_dump_iff (List.forall_mem_singleton.2 hescaped)
  obtain ⟨other, hother, hlost⟩ := Table.read_dump_iff hreturned
  refine ⟨⟨text, htext, hread.2 fun r hr => ?_⟩, other, hother, fun hback => ?_⟩
  · rw [List.mem_singleton.1 hr]
    exact unbroken_iff.2 (forall_mem_of_all (by decide +kernel))
  · exact hlost.1 hback returnedRow (List.mem_singleton_self _) .finalText _ rfl '\r' (by decide)
      (by decide)

end LyricScore
