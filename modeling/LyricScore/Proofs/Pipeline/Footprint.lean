/-
Footprints: what a stage may write. Every stage but the layout and the heading hands on the table
row by row, and on each row it writes into a few columns of its own. The footprint of a stage names
these columns, row by row; all other cells are as they were. This holds of every table, not only
of those that come from a score.

A stage that works row by row is bounded by what it does to one row. Where it writes at places that
it computed before, such as the row at which a unit is declared or a key is announced, the place is
that of a row which the footprint allows.
-/
import LyricScore.Proofs.Pipeline.Outcomes
import LyricScore.Proofs.Table.Keys
import LyricScore.Proofs.Table.Tones
import Mathlib.Data.List.Forall2

namespace LyricScore

-- ============================================================== rows

/-- A row with the same cells as another one, but for some columns. -/
def Row.Keeps (columns : List Column) (r r' : Row) : Prop :=
  ∀ column, column ∉ columns → r'.record column = r.record column

namespace Row.Keeps

variable {r r' r'' : Row} {columns more : List Column}

theorem refl (columns : List Column) (r : Row) : r.Keeps columns r :=
  fun _ _ => rfl

theorem mono (h : r.Keeps columns r') (hsub : columns ⊆ more) : r.Keeps more r' :=
  fun column hcolumn => h column fun hmem => hcolumn (hsub hmem)

theorem trans (h : r.Keeps columns r') (h' : r'.Keeps columns r'') : r.Keeps columns r'' :=
  fun column hcolumn => (h' column hcolumn).trans (h column hcolumn)

theorem octave (r : Row) (value : Option Int) : r.Keeps [.octave] { r with octave := value } := by
  intro column hcolumn
  cases column <;> simp_all [Row.record]

theorem withTone (r : Row) (tone : Tone) :
    r.Keeps [.letter, .accidental, .octave] (r.withTone tone) := by
  intro column hcolumn
  cases column <;> simp_all [Row.record, Row.withTone]

theorem unit (r : Row) (unit declared : Option Rat) :
    r.Keeps [.unit, .declared] { r with unit := unit, declared := declared } := by
  intro column hcolumn
  cases column <;> simp_all [Row.record]

theorem meter (r : Row) (meter : Option String) (directive : String) :
    r.Keeps [.meter, .directive] { r with meter := meter, directive := directive } := by
  intro column hcolumn
  cases column <;> simp_all [Row.record]

theorem key (r : Row) (key : Option String) : r.Keeps [.key] { r with key := key } := by
  intro column hcolumn
  cases column <;> simp_all [Row.record]

theorem directive (r : Row) (directive : String) (key : Option String) :
    r.Keeps [.directive, .key] { r with directive := directive, key := key } := by
  intro column hcolumn
  cases column <;> simp_all [Row.record]

theorem draft (r : Row) (draft : Option String) : r.Keeps [.draftText] { r with draftText := draft } := by
  intro column hcolumn
  cases column <;> simp_all [Row.record]

theorem barline (r : Row) (draft key : Option String) :
    r.Keeps [.draftText, .key] { r with draftText := draft, key := key } := by
  intro column hcolumn
  cases column <;> simp_all [Row.record]

theorem note (r : Row) (note draft : Option String) :
    r.Keeps [.noteText, .draftText] { r with noteText := note, draftText := draft } := by
  intro column hcolumn
  cases column <;> simp_all [Row.record]

theorem final (r : Row) (final : Option String) : r.Keeps [.finalText] { r with finalText := final } := by
  intro column hcolumn
  cases column <;> simp_all [Row.record]

end Row.Keeps

-- ======================================================== footprints

/-- Whether a row is the first one of its block that takes time. -/
def Table.startsBlock (t : Table) (p : PlacedRow) : Bool :=
  p.1.isRhythm && !(t.take p.2).any fun r => r.isRhythm && r.block == p.1.block

/-- The draft of a field of the heading, for the row of that field. -/
def fieldColumns (name : String) (r : Row) : List Column :=
  if r.source = .header ∧ r.raw = name then [.draftText] else []

/-- The columns that a stage may write on a row of a table. -/
def Stage.footprint (t : Table) (p : PlacedRow) : Stage → List Column
  | .layout | .heading | .assembly => []
  | .voicing => if p.1.source = .pitch then [.octave] else []
  | .underlay => if p.1.isAttack || p.1.isHold then [.letter, .accidental, .octave] else []
  | .units => (if p.1.isRhythm then [.unit, .declared] else []) ++ fieldColumns "L" p.1
  | .meters => (if p.1.isRhythm then [.meter, .directive] else []) ++ fieldColumns "M" p.1
  | .keys =>
    (if Keys.isLyricBarline p.1 then [.draftText, .key] else [])
      ++ (if t.startsBlock p then [.directive, .key] else [])
      ++ (if p.1.source = .pitch ∧ p.1.kind = .key then [.key] else [])
      ++ fieldColumns "K" p.1
  | .notes => if p.1.isRhythm then [.noteText, .draftText] else []
  | .ties => [.finalText]

/-- A table that differs from another one only within a footprint. -/
def Table.Keeps (footprint : PlacedRow → List Column) (t t' : Table) : Prop :=
  List.Forall₂ (fun p r' => p.1.Keeps (footprint p) r') t.zipIdx t'

namespace Table.Keeps

variable {t t' : Table} {footprint : PlacedRow → List Column}

/-- Seen row by row. -/
theorem forall_row (h : t.Keeps footprint t') :
    t'.length = t.length ∧ ∀ (i : Nat) (r r' : Row), t[i]? = some r → t'[i]? = some r' →
      r.Keeps (footprint (r, i)) r' := by
  refine ⟨by rw [← h.length_eq, List.length_zipIdx], fun i r r' hr hr' => ?_⟩
  obtain ⟨hi', rfl⟩ := List.getElem?_eq_some_iff.1 hr'
  obtain ⟨hi, rfl⟩ := List.getElem?_eq_some_iff.1 hr
  have hrow := List.Forall₂.get h (by simpa using hi) hi'
  simpa using hrow

theorem of_zipIdx_map {f : PlacedRow → Row}
    (hf : ∀ p ∈ t.zipIdx, p.1.Keeps (footprint p) (f p)) : t.Keeps footprint (t.zipIdx.map f) := by
  unfold Table.Keeps
  rw [List.forall₂_map_right_iff, List.forall₂_same]
  exact hf

/-- Rows that keep what a footprint without places leaves out. -/
theorem of_rows {columns : Row → List Column}
    (h : List.Forall₂ (fun r r' => Row.Keeps (columns r) r r') t t') :
    t.Keeps (fun p => columns p.1) t' := by
  rw [← List.zipIdx_map_fst 0 t, List.forall₂_map_left_iff] at h
  exact h

end Table.Keeps

/-- No stage changes where a row comes from and what it says. -/
theorem Stage.footprint_fixed (t : Table) (s : Stage) (p : PlacedRow) :
    .source ∉ s.footprint t p ∧ .raw ∉ s.footprint t p := by
  cases s <;> simp [Stage.footprint, fieldColumns]

/-- Setting a field of the heading touches no other row. -/
theorem Table.Keeps.setField {t t' : Table} {footprint : PlacedRow → List Column}
    (h : t.Keeps footprint t') {name : String} (value : String)
    (hfixed : ∀ p, .source ∉ footprint p ∧ .raw ∉ footprint p)
    (hfield : ∀ p, fieldColumns name p.1 ⊆ footprint p) :
    t.Keeps footprint (t'.setField name value) := by
  unfold Table.Keeps Table.setField at *
  rw [List.forall₂_map_right_iff]
  refine h.imp fun p r' hr => ?_
  split
  · next hname =>
    have hsource : r'.source = p.1.source := by simpa [Row.record] using hr .source (hfixed p).1
    have hraw : r'.raw = p.1.raw := by simpa [Row.record] using hr .raw (hfixed p).2
    have hdraft : [.draftText] ⊆ footprint p := by
      have := hfield p
      rwa [fieldColumns, if_pos ⟨hsource ▸ hname.1, hraw ▸ hname.2⟩] at this
    exact hr.trans ((Row.Keeps.draft r' (some value)).mono hdraft)
  · exact hr

-- ==================================================== pitches, tones

theorem resolve_keeps {continues : Int → Bool} {block : Option Int} {v : Voice} {rows out : List Row}
    (h : Voicing.resolve continues block v rows = .ok out) :
    List.Forall₂ (fun r r' => r.Keeps (if r.source = .pitch then [.octave] else []) r') rows out := by
  induction rows generalizing block v out with
  | nil =>
      obtain rfl := Except.ok.inj h
      exact .nil
  | cons r rows ih =>
      obtain ⟨r', rest, next, rfl, hrest, hr'⟩ := resolve_cons h
      refine .cons ?_ (ih hrest)
      rcases hr' with ⟨-, rfl, -⟩ | ⟨letter, hsource, -, -, rfl⟩
      · exact Row.Keeps.refl _ r'
      · rw [if_pos hsource]
        exact Row.Keeps.octave r _

theorem step_keeps (tones : Int → List Tone) (s : Underlay.State) (r : Row) :
    r.Keeps (if r.isAttack || r.isHold then [.letter, .accidental, .octave] else [])
      (Underlay.step tones s r).2.1 := by
  have hstep := Underlay.step_stepped tones s r
  generalize Underlay.step tones s r = out at hstep ⊢
  cases hstep with
  | sung hattack =>
      rw [hattack, Bool.true_or, if_pos rfl]
      exact Row.Keeps.withTone r _
  | held hhold =>
      rw [hhold, Bool.or_true, if_pos rfl]
      exact Row.Keeps.withTone r _
  | silent | unheld | rest | other => exact Row.Keeps.refl _ r

theorem underlay_run_keeps (continues : Int → Bool) (tones : Int → List Tone) (s : Underlay.State)
    (rows : List Row) :
    List.Forall₂
      (fun r r' => r.Keeps (if r.isAttack || r.isHold then [.letter, .accidental, .octave] else []) r')
      rows ((Underlay.run continues tones s rows).map (·.1)) := by
  induction rows generalizing s with
  | nil => exact .nil
  | cons r rows ih =>
      unfold Underlay.run
      split
      · exact .cons (step_keeps tones (s.enter continues r) r) (ih _)
      · exact .cons (Row.Keeps.refl _ r) (ih s)

-- ============================================================= units

/-- A unit mark takes effect at a row that takes time, if anywhere. -/
theorem declarations_target {t : Table} {block : Option Int} {start : Nat} {rows : List PlacedRow}
    {ds : List Declaration} (h : Units.declarations t block start rows = .ok ds) :
    ∀ d ∈ ds, ∀ place, d.target = some place → ∃ r, t[place]? = some r ∧ r.isRhythm = true := by
  intro d hd place hplace
  obtain ⟨-, start', -, -, htarget⟩ := exists_of_mem_declarations h d hd
  rw [htarget] at hplace
  obtain ⟨before, r, after, hdrop, rfl, hrhythm, -, -⟩ := firstRhythm?_spec hplace
  refine ⟨r, ?_, hrhythm⟩
  rw [← List.getElem?_drop, hdrop, List.getElem?_append_right (Nat.le_refl _), Nat.sub_self]
  rfl

theorem spread_keeps {ds : List Declaration} {unit : Rat} {rows : List PlacedRow}
    (hds : ∀ p ∈ rows, ∀ d ∈ ds, d.target = some p.2 → p.1.isRhythm = true) :
    List.Forall₂ (fun p r' => p.1.Keeps (if p.1.isRhythm then [.unit, .declared] else []) r') rows
      (Units.spread ds unit rows) := by
  induction rows generalizing unit with
  | nil => exact .nil
  | cons p rows ih =>
      obtain ⟨r, index⟩ := p
      obtain ⟨hp, hrows⟩ := List.forall_mem_cons.1 hds
      refine .cons ?_ (ih hrows)
      dsimp only at hp ⊢
      cases hdeclared : Units.declaredAt? ds index with
      | some declared =>
          obtain ⟨d, hd, htarget, -⟩ := declaredAt?_eq_some hdeclared
          have hrhythm := hp d hd htarget
          have hrow : Row.isRhythm { r with declared := (some declared).or r.declared } = true := hrhythm
          rw [if_pos hrow, if_pos hrhythm]
          exact Row.Keeps.unit r _ _
      | none =>
          rw [Option.none_or]
          split
          · exact Row.Keeps.unit r _ _
          · exact Row.Keeps.refl _ r

theorem withUnitsOf_keeps {t : Table} {ds : List Declaration} (h : t.declarations = .ok ds) :
    t.Keeps (fun p => Stage.units.footprint t p) (t.withUnitsOf ds) := by
  have hspread : t.Keeps (fun p => if p.1.isRhythm then [.unit, .declared] else [])
      (Units.spread ds defaultUnit t.zipIdx) := by
    refine spread_keeps fun p hp d hd htarget => ?_
    obtain ⟨r, hr, hrhythm⟩ := declarations_target h d hd p.2 htarget
    obtain rfl := Option.some.inj ((List.mem_zipIdx_iff_getElem?.1 hp).symm.trans hr)
    exact hrhythm
  have hrows : t.Keeps (fun p => Stage.units.footprint t p) (Units.spread ds defaultUnit t.zipIdx) :=
    hspread.imp fun p r' hr => hr.mono (List.subset_append_left _ _)
  exact hrows.setField _ (Stage.units.footprint_fixed t) fun p => List.subset_append_right _ _

-- ============================================================ meters

theorem mark_keeps (m : Measure × List String) (r : Row) (index : Nat) :
    r.Keeps [.meter, .directive] (Measure.mark m r index) := by
  unfold Measure.mark
  dsimp only
  split
  · exact Row.Keeps.meter r _ _
  · exact Row.Keeps.meter r _ r.directive

theorem withMetersText_keeps (t : Table) :
    t.Keeps (fun p => Stage.meters.footprint t p) t.withMetersText := by
  refine Table.Keeps.setField (Table.Keeps.of_zipIdx_map fun p _ => ?_) _
    (Stage.meters.footprint_fixed t) fun p => List.subset_append_right _ _
  split
  · exact Row.Keeps.refl _ p.1
  · next m hm =>
    obtain ⟨key, hkey, -⟩ := Option.bind_eq_some_iff.1 hm
    refine (mark_keeps m p.1 p.2).mono ?_
    simp [Stage.footprint, (measureKey?_eq_some.1 hkey).1]

-- ============================================================== keys

/-- A key signature stands on the row of a signature in a pitch line. -/
theorem mem_marks_kind {t : Table} {s : Keys.State} {rows : List PlacedRow} {m : KeyMark}
    (h : m ∈ Keys.marks t s rows) :
    ∃ r, (r, m.index) ∈ rows ∧ r.source = .pitch ∧ r.kind = .key := by
  induction rows generalizing s with
  | nil => cases h
  | cons p rows ih =>
      rw [Keys.marks_cons] at h
      rcases List.mem_append.1 h with h | h
      · have hmark := Option.mem_toList.1 h
        unfold Keys.mark? at hmark
        split at hmark
        · next hrow =>
          obtain rfl := Option.some.inj hmark
          exact ⟨p.1, List.mem_cons_self, hrow⟩
        · cases hmark
      · obtain ⟨r, hr, hrow⟩ := ih h
        exact ⟨r, List.mem_cons_of_mem _ hr, hrow⟩

/-- A placed row stands behind as many rows as its place says. -/
theorem take_place {t : Table} {before after : List PlacedRow} {p : PlacedRow}
    (h : t.zipIdx = before ++ p :: after) : t.take p.2 = before.map (·.1) := by
  have hget : t.zipIdx[before.length]? = some p := by
    rw [h, List.getElem?_append_right (Nat.le_refl _), Nat.sub_self]
    rfl
  obtain ⟨r, -, rfl⟩ := Option.map_eq_some_iff.1 (List.getElem?_zipIdx ▸ hget)
  rw [← List.zipIdx_map_fst 0 t, ← List.map_take, h, Nat.zero_add, List.take_left]

/-- The first note of a block is the row that starts the block. -/
theorem startsBlock_of_firstNote? {t : Table} {block : Int} {p : PlacedRow} (hp : p ∈ t.zipIdx)
    (h : Keys.firstNote? t block = some p.2) : t.startsBlock p = true := by
  obtain ⟨before, r, after, hsplit, hrhythm, rfl, hbefore⟩ := firstNote?_spec h
  have hmem : (r, p.2) ∈ t.zipIdx := hsplit ▸ List.mem_append_right _ List.mem_cons_self
  have hr : r = p.1 := eq_of_mem_zipIdx hmem hp
  subst hr
  unfold Table.startsBlock
  rw [hrhythm, Bool.true_and, Bool.not_eq_true', List.any_eq_false, take_place hsplit]
  intro q hq hsame
  obtain ⟨⟨q, place⟩, hmem, rfl⟩ := List.mem_map.1 hq
  simp only [Bool.and_eq_true, beq_iff_eq] at hsame
  exact hbefore (q, place) hmem hsame.1 hsame.2

theorem write_keeps {columns : List Column} {index : Nat} {m : KeyMark} (r : Row)
    (hindex : m.index = index → .key ∈ columns)
    (hnote : m.effect = .atNote index → .directive ∈ columns ∧ .key ∈ columns)
    (hbarline : m.effect = .atBarline index → .draftText ∈ columns ∧ .key ∈ columns) :
    r.Keeps columns (Keys.write index r m) := by
  have hown : r.Keeps columns (if m.index = index then { r with key := some m.key } else r) := by
    split
    · next h => exact (Row.Keeps.key r _).mono (by simpa using hindex h)
    · exact Row.Keeps.refl _ r
  unfold Keys.write
  dsimp only
  generalize (if m.index = index then { r with key := some m.key } else r) = own at hown
  split
  · next target heffect =>
    split
    · next htarget =>
      refine hown.trans ((Row.Keeps.directive own _ _).mono ?_)
      simpa using hnote (htarget ▸ heffect)
    · exact hown
  · next target heffect =>
    split
    · next htarget =>
      refine hown.trans ((Row.Keeps.barline own _ _).mono ?_)
      simpa using hbarline (htarget ▸ heffect)
    · exact hown
  · exact hown

theorem foldl_write_keeps {columns : List Column} {index : Nat} {ms : List KeyMark} (r : Row)
    (hwrite : ∀ m ∈ ms, ∀ r : Row, r.Keeps columns (Keys.write index r m)) :
    r.Keeps columns (ms.foldl (Keys.write index) r) := by
  induction ms generalizing r with
  | nil => exact Row.Keeps.refl _ r
  | cons m ms ih =>
      obtain ⟨hm, hms⟩ := List.forall_mem_cons.1 hwrite
      exact (hm r).trans (ih _ hms)

theorem annotate_keeps {t : Table} {p : PlacedRow} (hp : p ∈ t.zipIdx) :
    p.1.Keeps (Stage.keys.footprint t p) (Keys.annotate t.keyMarks p.1 p.2) := by
  have hstroke : p.1.Keeps (Stage.keys.footprint t p)
      (if Keys.isLyricBarline p.1 then { p.1 with draftText := some Keys.bar } else p.1) := by
    split
    · next hbar => exact (Row.Keeps.draft p.1 _).mono (by simp [Stage.footprint, hbar])
    · exact Row.Keeps.refl _ p.1
  refine hstroke.trans (foldl_write_keeps _ fun m hm r => write_keeps r ?_ ?_ ?_)
  · intro hindex
    obtain ⟨q, hq, hpitch, hkey⟩ := mem_marks_kind hm
    obtain rfl := eq_of_mem_zipIdx (hindex ▸ hq) hp
    simp [Stage.footprint, hpitch, hkey]
  · intro hnote
    have hstarts := startsBlock_of_firstNote? hp ((sound_of_mem_keyMarks hm).atNote p.2 hnote)
    simp [Stage.footprint, hstarts]
  · intro hbarline
    obtain ⟨⟨q, place⟩, hq, rfl⟩ :=
      List.mem_map.1 ((sound_of_mem_keyMarks hm).atBarline p.2 hbarline)
    obtain ⟨hmem, hbar⟩ := List.mem_filter.1 hq
    obtain rfl := eq_of_mem_zipIdx hmem hp
    simp only [Bool.and_eq_true] at hbar
    simp [Stage.footprint, hbar.1]

theorem withKeys_keeps (t : Table) : t.Keeps (fun p => Stage.keys.footprint t p) t.withKeys :=
  (Table.Keeps.of_zipIdx_map fun _ hp => annotate_keeps hp).setField _
    (Stage.keys.footprint_fixed t) fun _ => List.subset_append_right _ _

-- ======================================================= notes, ties

theorem withNotesText_keeps (t : Table) :
    t.Keeps (fun p => Stage.notes.footprint t p) t.withNotesText := by
  refine Table.Keeps.of_zipIdx_map fun p _ => ?_
  split
  · exact Row.Keeps.refl _ p.1
  · next g hg =>
    obtain ⟨key, hkey, -⟩ := Option.bind_eq_some_iff.1 hg
    refine (Row.Keeps.note p.1 _ _).mono ?_
    simp [Stage.footprint, (beatKey?_eq_some.1 hkey).1]

theorem withTexts_keeps (t : Table) (texts : List (Nat × String)) :
    t.Keeps (fun p => Stage.ties.footprint t p) (t.withTexts texts) :=
  Table.Keeps.of_zipIdx_map fun p _ => Row.Keeps.final p.1 _

-- ============================================================ stages

/-- A stage between the layout and the tune, the heading apart, keeps all but its footprint. -/
theorem Stage.run_keeps_table {s : Stage} {c c' : Context} {t t' : Table}
    (h : s.run c t = .ok (c', t')) (hlayout : s ≠ .layout) (hheading : s ≠ .heading) :
    t.Keeps (s.footprint t ·) t' := by
  cases Stage.run_eq_ok_iff.1 h with
  | layout => exact absurd rfl hlayout
  | heading => exact absurd rfl hheading
  | voicing hvoiced => exact Table.Keeps.of_rows (resolve_keeps hvoiced)
  | underlay => exact Table.Keeps.of_rows (underlay_run_keeps _ _ _ t)
  | units hds => exact withUnitsOf_keeps hds
  | meters => exact withMetersText_keeps t
  | keys => exact withKeys_keeps t
  | notes => exact withNotesText_keeps t
  | ties hties =>
      obtain ⟨rfl, -⟩ := Table.withTies_eq_ok hties
      exact withTexts_keeps t _
  | assembly => exact Table.Keeps.of_rows (List.forall₂_same.2 fun r _ => Row.Keeps.refl [] r)

/-- What a stage does to a table: the heading puts its five fields in front of the rows, and every
stage behind the layout but this one keeps the rows in their places and changes no cell outside of
its footprint. -/
theorem Stage.run_keeps_outside_footprint {s : Stage} {c c' : Context} {t t' : Table}
    (h : s.run c t = .ok (c', t')) :
    (s = .heading → ∃ heading : List Row, t' = heading ++ t
        ∧ heading.map (·.raw) = ["X", "T", "K", "M", "L"] ∧ ∀ r ∈ heading, r.source = .header)
      ∧ (s ≠ .layout → s ≠ .heading → t'.length = t.length
        ∧ ∀ (i : Nat) (r r' : Row), t[i]? = some r → t'[i]? = some r' →
          ∀ column, column ∉ s.footprint t (r, i) → r'.record column = r.record column) := by
  refine ⟨?_, fun hlayout hheading => (run_keeps_table h hlayout hheading).forall_row⟩
  rintro rfl
  obtain ⟨title, -, hout⟩ := bind_eq_ok.1 h
  obtain ⟨-, rfl⟩ := Prod.mk.inj (Except.ok.inj hout)
  refine ⟨headingRows title, rfl, rfl, fun r hr => ?_⟩
  obtain ⟨field, -, rfl⟩ := List.mem_map.1 hr
  rfl

/-- A barline behind which the key changes. -/
theorem Stage.run_keeps_outside_footprint_barline :
    let barline : Row := { source := .lyric, block := 1, kind := .barline, raw := "|" }
    let t : Table :=
      [{ source := .lyric, block := 1, kind := .syllable, raw := "la" }, barline, keyRow 1 1 "K#1",
        { source := .pitch, block := 1, kind := .barline, raw := "|" }, keyRow 1 2 "K#2"]
    ∃ c' t' r', Stage.keys.run ⟨{}, .absent, [], [], ""⟩ t = .ok (c', t') ∧ t'[1]? = some r'
      ∧ r'.draftText = some "| [K:D major]"
      ∧ ∀ column, column ≠ .draftText → column ≠ .key → r'.record column = barline.record column := by
  intro barline t
  refine ⟨_, _, _, rfl, rfl, by decide, fun column hdraft hkey => ?_⟩
  have hrows := (Stage.run_keeps_outside_footprint (s := .keys) (c := ⟨{}, .absent, [], [], ""⟩)
    (t := t) rfl).2 (by decide) (by decide)
  have hfootprint : Stage.keys.footprint t (barline, 1) = [.draftText, .key] := by decide
  exact hrows.2 1 barline _ rfl rfl column (by simp [hfootprint, hdraft, hkey])

end LyricScore
