/-
How many notes a score has. The attacks of a block take its pitches one by one, so of a block as
many attacks sound as there are attacks and pitches for them. Holds and rests strike nothing, and
the stages behind the underlay strike nothing new.
-/
import LyricScore.Proofs.Performance.Extents
import LyricScore.Proofs.Table.Sustain
import LyricScore.Proofs.Table.Underlay
import Mathlib.Algebra.BigOperators.Group.Finset.Basic

namespace LyricScore

theorem Table.countIn_map {f : Row → Row} {sort : Row → Bool} (hsort : ∀ r, sort (f r) = sort r)
    (hblock : ∀ r, (f r).block = r.block) (t : Table) (block : Int) :
    Table.countIn (t.map f) sort block = t.countIn sort block := by
  unfold Table.countIn
  rw [List.countP_map]
  refine List.countP_congr fun r _ => ?_
  rw [Function.comp_apply, hsort, hblock]

-- ============================================================== blocks

/-- Blocks share the rows of a table among them. -/
theorem Table.sum_countIn {t : Table} {sort : Row → Bool} {blocks : List Int}
    (hblocks : blocks.Nodup) (h : ∀ r ∈ t, sort r = true → r.block ∈ blocks) :
    (blocks.map (t.countIn sort)).sum = t.countP sort := by
  have hcount : ∀ block, t.countIn sort block = ((t.filter sort).map (·.block)).count block := by
    intro block
    unfold Table.countIn List.count
    rw [List.countP_map, List.countP_filter]
    exact List.countP_congr fun r _ => by simp [and_comm]
  rw [List.map_congr_left fun block _ => hcount block, ← List.sum_toFinset _ hblocks]
  have hcard := @Multiset.sum_count_eq_card Int _ blocks.toFinset
    (Multiset.ofList ((t.filter sort).map (·.block))) ?_
  · rw [List.countP_eq_length_filter]
    simpa using hcard
  · intro block hblock
    obtain ⟨r, hr, rfl⟩ := List.mem_map.1 (Multiset.mem_coe.1 hblock)
    obtain ⟨hr, hsort⟩ := List.mem_filter.1 hr
    exact List.mem_toFinset.2 (h r hr hsort)

theorem isAttack_of_strikes {r : Row} (h : r.strikes = true) : r.isAttack = true :=
  (Bool.and_eq_true_iff.1 h).1

/-- Every row that strikes a note is in a block. -/
theorem Table.sum_strikes (t : Table) :
    (t.blockNumbers.map (t.countIn Row.strikes)).sum = t.countP Row.strikes := by
  refine Table.sum_countIn (nodup_distinct _) fun r hr hstrikes => ?_
  have hattack := isAttack_of_strikes hstrikes
  simp only [Row.isAttack, Bool.and_eq_true, beq_iff_eq] at hattack
  refine mem_distinct.2 (List.mem_map_of_mem (List.mem_filter.2 ⟨hr, ?_⟩))
  rw [hattack.1]
  decide

-- ============================================================= pitches

/-- A pitch that the layout wrote has a letter. -/
theorem isSome_letter_of_mem_layout {s : Score} {r : Row} (h : r ∈ s.layout)
    (hpitch : r.isPitch = true) : r.letter.isSome = true := by
  obtain ⟨hsource, hkind⟩ := isPitch_iff.1 hpitch
  obtain ⟨b, -, number, hlays⟩ := Score.lays_of_mem_layout h
  cases hlays with
  | lyricBar | unit | segment => cases hsource
  | opening | pitchBar | key => cases hkind
  | pitch => rfl

/-- Voicing gives an octave to every pitch with a letter. -/
theorem resolve_offers {continues : Int → Bool} {block : Option Int} {v : Voice}
    {rows out : List Row}
    (h : Voicing.resolve continues block v rows = .ok out)
    (hrows : ∀ r ∈ rows, r.isPitch = true → r.letter.isSome = true) :
    ∀ r ∈ out, r.isPitch = true → r.offeredTone?.isSome = true := by
  induction rows generalizing block v out with
  | nil =>
      obtain rfl := Except.ok.inj h
      exact fun r hr => absurd hr List.not_mem_nil
  | cons r rows ih =>
      obtain ⟨hr, hrows⟩ := List.forall_mem_cons.1 hrows
      obtain ⟨r', rest, next, rfl, hrest, hr'⟩ := resolve_cons h
      refine List.forall_mem_cons.2 ⟨fun hpitch => ?_, ih hrest hrows⟩
      rcases hr' with ⟨hnone, rfl, -⟩ | ⟨letter, -, hletter, -, rfl⟩
      · obtain ⟨name, hname⟩ := Option.isSome_iff_exists.1 (hr hpitch)
        rw [sungLetter?_eq_some.2 ⟨(isPitch_iff.1 hpitch).1, hname⟩] at hnone
        cases hnone
      · unfold Row.offeredTone?
        rw [if_pos (isPitch_iff.1 hpitch)]
        simp only [hletter]
        rfl

/-- The tones that a block offers are its pitches. -/
theorem length_tones {v : Table} (h : ∀ r ∈ v, r.isPitch = true → r.offeredTone?.isSome = true)
    (block : Int) : (v.tones block).length = v.countIn Row.isPitch block := by
  unfold Table.tones Table.countIn
  rw [List.length_filterMap_eq_countP]
  refine List.countP_congr fun r hr => ?_
  by_cases hblock : r.block = block
  · rw [if_pos hblock, decide_eq_true hblock, Bool.and_true]
    refine ⟨fun hoffer => ?_, h r hr⟩
    unfold Row.offeredTone? at hoffer
    split at hoffer
    · next hpitch => exact isPitch_iff.2 hpitch
    · cases hoffer
  · rw [if_neg hblock, decide_eq_false hblock, Bool.and_false]
    exact Iff.rfl

-- ============================================================ underlay

/-- Of the rows that came without a tone, those strike a note that were sung. -/
theorem strikes_outcome {continues : Int → Bool} {tones : Int → List Tone} {s : Underlay.State}
    {r : Row} (h : r.source = .lyric → r.letter = none) :
    (Underlay.outcome continues tones s r).1.strikes
      = decide ((Underlay.outcome continues tones s r).2 = .sung) := by
  by_cases hattack : r.isAttack = true
  · rw [Underlay.outcome_of_attack hattack rfl]
    cases (tones r.block)[s.attacks.count r.block]? with
    | none =>
        have hletter := h (source_of_isAttack hattack)
        simp [Row.strikes, Row.hasPitch, hletter]
    | some tone => exact (Bool.and_true _).trans hattack
  · have hattack : r.isAttack = false := Bool.eq_false_iff.2 hattack
    by_cases hhold : r.isHold = true
    · rw [Underlay.outcome_of_hold hhold rfl]
      cases (s.enter continues r).sounding with
      | none => exact (congrArg (· && _) hattack).trans (Bool.false_and _)
      | some tone => exact (congrArg (· && _) hattack).trans (Bool.false_and _)
    · rw [Underlay.outcome_of_other hattack (Bool.eq_false_iff.2 hhold)]
      exact (congrArg (· && _) hattack).trans (Bool.false_and _)

theorem strikes_of_mem_run {continues : Int → Bool} {tones : Int → List Tone} {s : Underlay.State}
    {rows : List Row} (hrows : ∀ r ∈ rows, r.source = .lyric → r.letter = none) :
    ∀ p ∈ Underlay.run continues tones s rows, p.1.strikes = decide (p.2 = .sung) := by
  induction rows generalizing s with
  | nil => exact fun p hp => absurd hp List.not_mem_nil
  | cons r rest ih =>
      obtain ⟨hr, hrest⟩ := List.forall_mem_cons.1 hrows
      rw [Underlay.run_cons]
      exact List.forall_mem_cons.2 ⟨strikes_outcome hr, ih hrest⟩

-- ============================================================== tables

/-- Of the attacks of a block as many sound as there are attacks and pitches. -/
theorem strikes_underlaid {s : Score} {v : Table} (h : s.layout.voiced = .ok v) (block : Int) :
    Table.countIn (v.underlaid.map (·.1)) Row.strikes block
      = min (Table.countIn (v.underlaid.map (·.1)) Row.isAttack block)
          (Table.countIn (v.underlaid.map (·.1)) Row.isPitch block) := by
  obtain ⟨hvoiced, hlyric, -⟩ := resolve_spec h
  have hbare : ∀ r ∈ v, r.source = .lyric → r.letter = none := fun r hr hsource =>
    ((bare_of_mem_layout (hlyric r hr hsource)).untuned hsource).1
  have hsame : (v.underlaid.map (·.1)).map Row.untoned = v.map Row.untoned :=
    (underlaid_spec h).1.trans hvoiced.symm
  have hkeeps : ∀ {sort : Row → Bool}, (∀ r : Row, sort r.untoned = sort r) →
      Table.countIn (v.underlaid.map (·.1)) sort block = v.countIn sort block := by
    intro sort hsort
    rw [← Table.countIn_map hsort (fun _ => rfl) v, ← hsame]
    exact (Table.countIn_map hsort (fun _ => rfl) _ block).symm
  have hsung := v.countP_sung_underlaid block
  rw [v.length_pitches, length_tones (resolve_offers h fun r hr => isSome_letter_of_mem_layout hr)]
    at hsung
  rw [@hkeeps Row.isAttack fun _ => rfl, @hkeeps Row.isPitch fun _ => rfl, ← hsung, Table.countIn,
    List.countP_map]
  refine List.countP_congr fun p hp => ?_
  rw [Function.comp_apply, strikes_of_mem_run hbare p hp]

/-- Folding ties changes nothing that sounds. -/
theorem map_sung_withTies {t table : Table} {fold : Bool} {folding : Folding}
    (h : t.withTies fold = .ok (table, folding)) : table.map Row.sung = t.map Row.sung := by
  obtain ⟨rfl, -⟩ := Table.withTies_eq_ok h
  exact map_sung_withTexts t folding.texts

/-- The heading has no rows of a sort that is not for headings. -/
theorem Table.countIn_withHeading {sort : Row → Bool}
    (hsort : ∀ r : Row, r.source = .header → sort r = false) (t : Table) (heading : String)
    (block : Int) : (t.withHeading heading).countIn sort block = t.countIn sort block := by
  unfold Table.countIn Table.withHeading
  rw [List.countP_append, List.countP_eq_zero.2, Nat.zero_add]
  intro r hr
  simp [hsort r (source_of_mem_headingRows hr).1]

/-- The stages behind the underlay bring no rows but the heading, and change nothing that sounds. -/
theorem Table.countIn_engraved {sort : Row → Bool} (hsung : ∀ r : Row, sort r.sung = sort r)
    (hheader : ∀ r : Row, r.source = .header → sort r = false) {lines table : Table}
    {heading : String} {ds : List Declaration} {fold : Bool} {folding : Folding}
    (h : (lines.engraved heading ds).withTies fold = .ok (table, folding)) (block : Int) :
    table.countIn sort block = lines.countIn sort block := by
  have hengraved := map_sung_of_unmarked (map_unmarked_engraved lines heading ds)
  rw [← Table.countIn_map hsung (fun _ => rfl) table, map_sung_withTies h, hengraved,
    Table.countIn_map hsung fun _ => rfl]
  exact Table.countIn_withHeading hheader lines heading block

/-- In a table that a run gave out, of the attacks of a block as many sound as there are attacks and
pitches. -/
theorem strikes_of_run {text : String} {title : Option String} {fold : Bool} {result : Result}
    (h : run (.text text) { title := title, fold := fold } = .ok result) (block : Int) :
    result.table.countIn Row.strikes block
      = min (result.table.countIn Row.isAttack block) (result.table.countIn Row.isPitch block) := by
  obtain ⟨s, v, heading, ds, folding, -, hv, -, hties, -⟩ := engraved_of_run h
  have hheader : ∀ r : Row, r.source = .header →
      r.strikes = false ∧ r.isAttack = false ∧ r.isPitch = false := by
    intro r hr
    simp [Row.strikes, Row.isAttack, Row.isPitch, hr]
  rw [Table.countIn_engraved (fun _ => rfl) (fun r hr => (hheader r hr).1) hties,
    Table.countIn_engraved (fun _ => rfl) (fun r hr => (hheader r hr).2.1) hties,
    Table.countIn_engraved (fun _ => rfl) (fun r hr => (hheader r hr).2.2) hties]
  exact strikes_underlaid hv block

/-- When the notes of a text sound. Every row that takes time lasts for its share of its beat. Each
attack with a pitch gives one note, in the order of the rows: it starts when all rows before it have
passed, and lasts over the attack and the holds with a pitch right behind it, whatever takes no
time between them. So every note lasts, the notes start one after the other, and none goes on when
the next one starts. Each block has as many notes as it has attacks and pitches for them. -/
theorem run_events_extents {text : String} {title : Option String} {fold : Bool} {result : Result}
    (h : run (.text text) { title := title, fold := fold } = .ok result) :
    ∃ notes, result.table.events = .ok notes
      ∧ notes.map NoteEvent.extent = result.table.extents
      ∧ (∀ e ∈ notes, 0 < e.duration)
      ∧ notes.Pairwise (fun e f => e.start < f.start ∧ e.start + e.duration ≤ f.start)
      ∧ notes.length = (result.table.blockNumbers.map fun block =>
          min (result.table.countIn Row.isAttack block)
            (result.table.countIn Row.isPitch block)).sum := by
  obtain ⟨notes, hnotes, hextents, hlast, hordered⟩ := exists_events_of_run h
  refine ⟨notes, hnotes, hextents, fun e he => (hlast e he).2, ?_, ?_⟩
  · refine hordered.imp_of_mem fun {e f} he _ hef => ⟨?_, hef⟩
    have := (hlast e he).2
    linarith
  · have hlength : notes.length = (result.table.filter Row.isRhythm).countP Row.strikes := by
      rw [← length_extentsFrom result.table.timeOf 0, ← Table.extents_eq, ← hextents,
        List.length_map]
    rw [List.map_congr_left fun block _ => (strikes_of_run h block).symm,
      Table.sum_strikes, hlength, List.countP_filter]
    refine List.countP_congr fun r _ => ?_
    rw [Bool.and_eq_true]
    exact and_iff_left_of_imp fun hstrikes => isRhythm_of_isAttack (isAttack_of_strikes hstrikes)

/-- A note that is held over a barline into the next block, a pitch too many in the first block and
an attack too many in the second. -/
def heldOverText : String :=
  "la ; la.la.- |\nc d e f\n\n- la la\ng"

/-- The run of the held note, with the extents of its notes. -/
def heldOverRun : {result // run (.text heldOverText) { title := none, fold := true } = .ok result
    ∧ result.table.extents = [(0, 1), (2, 1 / 3), (7 / 3, 5 / 3), (4, 1)]} :=
  checked (by decide +kernel)

theorem run_events_extents_heldOverText :
    ∃ result, run (.text heldOverText) { title := none, fold := true } = .ok result
      ∧ result.table.extents = [(0, 1), (2, 1 / 3), (7 / 3, 5 / 3), (4, 1)]
      ∧ ∃ notes, result.table.events = .ok notes
        ∧ notes.map NoteEvent.extent = result.table.extents
        ∧ (∀ e ∈ notes, 0 < e.duration)
        ∧ notes.Pairwise (fun e f => e.start < f.start ∧ e.start + e.duration ≤ f.start)
        ∧ notes.length = (result.table.blockNumbers.map fun block =>
            min (result.table.countIn Row.isAttack block)
              (result.table.countIn Row.isPitch block)).sum := by
  obtain ⟨result, hrun, hextents⟩ := heldOverRun
  exact ⟨result, hrun, hextents, run_events_extents hrun⟩

end LyricScore
