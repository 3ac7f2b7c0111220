/-
Runs that do not fail. A run goes through its stages one by one, and each hands its table to the
next; options and piece stay as they are. From a run that came through the notes, the tables
between the stages can be told, and so the table behind the notes is scored.
-/
import LyricScore.Pipeline.Run
import LyricScore.Proofs.Pipeline.Outcomes
import LyricScore.Proofs.Score.RoundTrip
import LyricScore.Proofs.Table.Scored

namespace LyricScore

-- ============================================================== runs

/-- The stages lead from a context and a table to another context and table without a failure. -/
inductive Completes : Context → Table → List Stage → Context → Table → Prop where
  | done (c : Context) (t : Table) : Completes c t [] c t
  | step {c next c' : Context} {t table t' : Table} {s : Stage} {rest : List Stage}
      (hstage : s.run c t = .ok (next, table)) (hrest : Completes next table rest c' t') :
      Completes c t (s :: rest) c' t'

/-- The last table of a trace that started with the given one. -/
def Trace.lastTable (tr : Trace) (t : Table) : Table :=
  (tr.steps.getLast?.map (·.table)).getD t

theorem Trace.lastTable_cons (step : Step) (more : Trace) (t : Table) :
    Trace.lastTable { more with steps := step :: more.steps } t = more.lastTable step.table := by
  unfold Trace.lastTable
  rw [List.getLast?_cons]
  cases more.steps.getLast? <;> rfl

theorem completes_of_runStages {c : Context} {t : Table} {stages : List Stage}
    (h : (runStages c t stages).failure = none) :
    Completes c t stages (runStages c t stages).context ((runStages c t stages).lastTable t) := by
  induction stages generalizing c t with
  | nil => exact .done c t
  | cons s rest ih =>
      simp only [runStages] at h ⊢
      split at h
      · cases h
      · next next table hstage =>
        have hrest := ih h
        rw [Trace.lastTable_cons]
        exact .step hstage hrest

theorem Trace.result_eq_ok {tr : Trace} {result : Result} (h : tr.result = .ok result) :
    tr.failure = none ∧ result.table = tr.lastTable [] ∧ result.tune = tr.context.tune
      ∧ result.figures = tr.context.figures := by
  unfold Trace.result at h
  split at h
  · cases h
  · next hnone =>
    obtain rfl := Except.ok.inj h
    exact ⟨hnone, rfl, rfl, rfl⟩

theorem Trace.exists_result {tr : Trace} (h : tr.failure = none) :
    ∃ result, tr.result = .ok result ∧ result.table = tr.lastTable [] := by
  unfold Trace.result
  rw [h]
  exact ⟨_, rfl, rfl⟩

namespace Completes

theorem append {c c' : Context} {t t' : Table} {stages more : List Stage}
    (h : Completes c t (stages ++ more) c' t') :
    ∃ next table, Completes c t stages next table ∧ Completes next table more c' t' := by
  induction stages generalizing c t with
  | nil => exact ⟨c, t, .done c t, h⟩
  | cons s rest ih =>
      cases h with
      | step hstage hrest =>
          obtain ⟨next, table, hfirst, hmore⟩ := ih hrest
          exact ⟨next, table, .step hstage hfirst, hmore⟩

theorem concat {c next c' : Context} {t table t' : Table} {stages : List Stage} {s : Stage}
    (h : Completes c t stages next table) (hstage : s.run next table = .ok (c', t')) :
    Completes c t (stages ++ [s]) c' t' := by
  induction h with
  | done => exact .step hstage (.done c' t')
  | step hfirst _ ih => exact .step hfirst (ih hstage)

/-- Stages that lead to a table give it out when they run. -/
theorem runStages_eq {c c' : Context} {t t' : Table} {stages : List Stage}
    (h : Completes c t stages c' t') :
    (runStages c t stages).failure = none ∧ (runStages c t stages).lastTable t = t' := by
  induction h with
  | done => exact ⟨rfl, rfl⟩
  | step hstage _ ih =>
      simp only [runStages, hstage, Trace.lastTable_cons]
      exact ih

end Completes

/-- What a stage does to the context: it may warn and set the tune, and it records its figures under
its own name. -/
theorem Stage.context_of_run {s : Stage} {c next : Context} {t table : Table}
    (h : s.run c t = .ok (next, table)) :
    ∃ warnings tune figures,
      next = Context.record { c with warnings := warnings, tune := tune } s.name figures := by
  cases Stage.run_eq_ok_iff.1 h
  all_goals exact ⟨_, _, _, rfl⟩

/-- No stage touches the options or the piece. -/
theorem Stage.run_keeps {s : Stage} {c next : Context} {t table : Table}
    (h : s.run c t = .ok (next, table)) : next.options = c.options ∧ next.piece = c.piece := by
  obtain ⟨warnings, tune, figures, rfl⟩ := Stage.context_of_run h
  exact ⟨rfl, rfl⟩

theorem Context.lookup_record (c : Context) (stage : String) (figures : Figures) (name : String) :
    (c.record stage figures).figures.lookup name
      = if name = stage then some figures else c.figures.lookup name := by
  unfold Context.record
  rw [List.lookup_append]
  by_cases hname : name = stage
  · subst hname
    have hnone : (c.figures.filter fun f => f.1 != name).lookup name = none := by
      refine List.lookup_eq_none_iff.2 fun f hf => ?_
      have hne := (List.mem_filter.1 hf).2
      rwa [bne_comm] at hne
    rw [hnone, if_pos rfl, Option.none_or, List.lookup_cons_self]
  · have hkept : (c.figures.filter fun f => f.1 != stage).lookup name = c.figures.lookup name :=
      lookup_filter (p := fun f => f.1 != stage) (fun _ => bne_iff_ne.2 hname) c.figures
    have hother : (name == stage) = false := beq_false_of_ne hname
    rw [hkept, if_neg hname, List.lookup_cons, hother, List.lookup_nil, Option.or_none]

/-- The figures of a stage stay as they are, unless it runs again. -/
theorem Completes.lookup_figures {c c' : Context} {t t' : Table} {stages : List Stage}
    (h : Completes c t stages c' t') {name : String} (hname : ∀ s ∈ stages, name ≠ s.name) :
    c'.figures.lookup name = c.figures.lookup name := by
  induction h with
  | done => rfl
  | step hstage _ ih =>
      obtain ⟨hfirst, hrest⟩ := List.forall_mem_cons.1 hname
      obtain ⟨warnings, tune, figures, rfl⟩ := Stage.context_of_run hstage
      rw [ih hrest, Context.lookup_record, if_neg hfirst]

-- ============================================================ tables

/-- The table of a score behind a stage. -/
def Score.behind (s : Score) (stage : Stage) (o : Options) : Except Error Table :=
  (runStages (.start o (.ofScore s)) [] (upTo stage.name Stage.all)).result.map (·.table)

theorem Score.behind_eq_ok {s : Score} {stage : Stage} {o : Options} {rows : Table} :
    s.behind stage o = .ok rows
      ↔ ∃ c, Completes (.start o (.ofScore s)) [] (upTo stage.name Stage.all) c rows := by
  constructor
  · intro h
    obtain ⟨result, hresult, rfl⟩ := map_eq_ok.1 h
    obtain ⟨hnone, htable, -⟩ := Trace.result_eq_ok hresult
    rw [htable]
    exact ⟨_, completes_of_runStages hnone⟩
  · rintro ⟨c, h⟩
    obtain ⟨hnone, hlast⟩ := h.runStages_eq
    obtain ⟨result, hresult, htable⟩ := Trace.exists_result hnone
    exact map_eq_ok.2 ⟨result, hresult, htable.trans hlast⟩

/-- The stages up to the meters. -/
def stagesToMeters : List Stage :=
  [.layout, .voicing, .underlay, .heading, .units, .meters]

/-- The stages up to the notes. -/
def stagesToNotes : List Stage :=
  stagesToMeters ++ [.keys, .notes]

/-- The tables between the stages of a run that came through the meters. -/
theorem Completes.metered {s : Score} {o : Options} {c : Context} {t : Table}
    (h : Completes (.start o (.ofScore s)) [] stagesToMeters c t) :
    c.options = o ∧ ∃ v title ds, s.layout.voiced = .ok v
      ∧ Table.declarations (Table.withHeading title (v.underlaid.map (·.1))) = .ok ds
      ∧ t = ((Table.withHeading title (v.underlaid.map (·.1))).withUnitsOf ds).withMetersText := by
  cases h with
  | step hlayout h =>
  cases h with
  | step hvoicing h =>
  cases h with
  | step hunderlay h =>
  cases h with
  | step hheading h =>
  cases h with
  | step hunits h =>
  cases h with
  | step hmeters h =>
  cases h with
  | done =>
  refine ⟨?_, ?_⟩
  · rw [(Stage.run_keeps hmeters).1, (Stage.run_keeps hunits).1, (Stage.run_keeps hheading).1,
      (Stage.run_keeps hunderlay).1, (Stage.run_keeps hvoicing).1, (Stage.run_keeps hlayout).1]
    rfl
  · cases Stage.run_eq_ok_iff.1 hlayout with
    | layout hscore =>
    obtain rfl := Except.ok.inj hscore
    cases Stage.run_eq_ok_iff.1 hvoicing with
    | voicing hv =>
    cases Stage.run_eq_ok_iff.1 hunderlay
    cases Stage.run_eq_ok_iff.1 hheading
    cases Stage.run_eq_ok_iff.1 hunits with
    | units hds =>
    cases Stage.run_eq_ok_iff.1 hmeters
    exact ⟨_, _, _, hv, hds, rfl⟩

/-- A score that came through the meters has every row of its layout, and is ready for the keys. -/
theorem Score.prepared_behind {s : Score} {o : Options} {t : Table} (h : s.behind .meters o = .ok t) :
    (∃ heading meter, t.Prepared heading meter)
      ∧ ∀ r ∈ s.layout, ∃ r' ∈ t, r'.outline = r.outline := by
  obtain ⟨c, hcompletes⟩ := Score.behind_eq_ok.1 h
  obtain ⟨-, v, title, ds, hv, hds, rfl⟩ := Completes.metered hcompletes
  obtain ⟨huntoned, -⟩ := underlaid_spec hv
  have houtline : (v.underlaid.map (·.1)).map Row.outline = s.layout.map Row.outline := by
    have hsame : Row.outline = Row.outline ∘ Row.untoned := rfl
    rw [hsame, ← List.map_map, huntoned, List.map_map]
  refine ⟨(s.layout_measured.of_outline houtline).prepared (bare_of_untoned huntoned) hds,
    fun r hr => ?_⟩
  apply List.mem_map.1
  rw [map_outline_prepared]
  unfold Table.withHeading
  rw [List.map_append, houtline]
  exact List.mem_append_right _ (List.mem_map_of_mem hr)

/-- The keys never fail. -/
theorem Score.behind_keys {s : Score} {o : Options} {t : Table} (h : s.behind .meters o = .ok t) :
    s.behind .keys o = .ok t.withKeys := by
  obtain ⟨c, hmeters⟩ := Score.behind_eq_ok.1 h
  exact Score.behind_eq_ok.2 ⟨_, hmeters.concat (s := .keys) rfl⟩

/-- The tables between the stages of a run that came through the notes. -/
theorem Completes.engraved {s : Score} {o : Options} {c : Context} {t : Table}
    (h : Completes (.start o (.ofScore s)) [] stagesToNotes c t) :
    c.options = o ∧ ∃ v title ds, s.layout.voiced = .ok v
      ∧ Table.declarations (Table.withHeading title (v.underlaid.map (·.1))) = .ok ds
      ∧ t = Table.engraved (v.underlaid.map (·.1)) title ds := by
  obtain ⟨next, table, hmeters, h⟩ := h.append
  obtain ⟨hoptions, v, title, ds, hv, hds, rfl⟩ := hmeters.metered
  cases h with
  | step hkeys h =>
  cases h with
  | step hnotes h =>
  cases h with
  | done =>
  refine ⟨?_, v, title, ds, hv, hds, ?_⟩
  · rw [(Stage.run_keeps hnotes).1, (Stage.run_keeps hkeys).1, hoptions]
  · cases Stage.run_eq_ok_iff.1 hkeys
    cases Stage.run_eq_ok_iff.1 hnotes
    rfl

/-- The table of a score behind the notes. -/
def Score.noted (s : Score) (o : Options) : Except Error Table :=
  (runStages (.start o (.ofScore s)) [] (upTo Stage.notes.name Stage.all)).result.map (·.table)

/-- A score with no beat shorter than one is scored behind the notes. -/
theorem Score.scored_of_noted {s : Score}
    (hs : ∀ b ∈ s.blocks, ∀ beat, LyricItem.beat beat ∈ b.lyrics → 1 ≤ beat.duration)
    {o : Options} {rows : Table} (h : s.noted o = .ok rows) :
    ∃ heading key, rows.Scored heading key := by
  have hbehind : s.behind .notes o = .ok rows := h
  obtain ⟨c, hcompletes⟩ := Score.behind_eq_ok.1 hbehind
  obtain ⟨-, v, title, ds, hv, hds, rfl⟩ := Completes.engraved hcompletes
  exact Score.scored hs hv hds

-- ============================================================= texts

/-- No beat that the reader returns is shorter than one. -/
theorem one_le_duration_of_parse {text : String} {s : Score} (h : Score.parse text = .ok s) :
    ∀ b ∈ s.blocks, ∀ beat, LyricItem.beat beat ∈ b.lyrics → 1 ≤ beat.duration := by
  intro b hb beat hbeat
  exact (((Reader.wellFormed_of_parse h).2 b hb).2.1 _ hbeat).2.2.1

/-- A run of a text that did not fail read a score and put it through its stages. -/
theorem completes_of_run {text : String} {o : Options} {result : Result}
    (h : run (.text text) o = .ok result) :
    ∃ s c, Score.parse text = .ok s ∧ Completes (.start o (.ofScore s)) [] o.stages c result.table
      ∧ result.tune = c.tune ∧ result.figures = c.figures := by
  obtain ⟨hnone, htable, htune, hfigures⟩ := Trace.result_eq_ok h
  unfold trace at hnone htable htune hfigures
  split at hnone
  · cases hnone
  · next hcomplaint =>
    split at hnone
    · cases hnone
    · next piece hpiece =>
      obtain ⟨s, hparse, rfl⟩ := map_eq_ok.1 hpiece
      simp only [hcomplaint, hpiece] at htable htune hfigures
      refine ⟨s, _, hparse, ?_, htune, hfigures⟩
      rw [htable, Trace.lastTable_cons]
      exact completes_of_runStages hnone

/-- A run of a text to its end folded the ties of a table behind the notes, and gave out its tune. -/
theorem engraved_of_run {text : String} {title : Option String} {fold : Bool} {result : Result}
    (h : run (.text text) { title := title, fold := fold } = .ok result) :
    ∃ s v heading ds folding, Score.parse text = .ok s ∧ s.layout.voiced = .ok v
      ∧ Table.declarations (Table.withHeading heading (v.underlaid.map (·.1))) = .ok ds
      ∧ Table.withTies (Table.engraved (v.underlaid.map (·.1)) heading ds) fold
        = .ok (result.table, folding)
      ∧ result.tune = result.table.tune := by
  obtain ⟨s, c, hparse, hcompletes, htune, -⟩ := completes_of_run h
  have hall : Completes (.start { title := title, fold := fold } (.ofScore s)) []
      (stagesToNotes ++ [.ties, .assembly]) c result.table := hcompletes
  obtain ⟨next, rows, hnotes, h⟩ := hall.append
  obtain ⟨hoptions, v, heading, ds, hv, hds, rfl⟩ := hnotes.engraved
  cases h with
  | step hties h =>
  cases h with
  | step hassembly h =>
  cases h with
  | done =>
  cases Stage.run_eq_ok_iff.1 hties with
  | ties hfold =>
  rw [hoptions] at hfold
  cases Stage.run_eq_ok_iff.1 hassembly
  exact ⟨s, v, heading, ds, _, hparse, hv, hds, hfold, htune⟩

/-- The table behind the notes is scored. -/
theorem scored_of_run {text : String} {title : Option String} {fold : Bool} {result : Result}
    (h : run (.text text) { title := title, fold := fold } = .ok result) :
    ∃ heading key rows folding, Table.Scored heading key rows
      ∧ rows.withTies fold = .ok (result.table, folding) ∧ result.tune = result.table.tune := by
  obtain ⟨s, v, title, ds, folding, hparse, hv, hds, hties, htune⟩ := engraved_of_run h
  obtain ⟨heading, key, hscored⟩ := Score.scored (one_le_duration_of_parse hparse) hv hds
  exact ⟨heading, key, _, folding, hscored, hties, htune⟩

end LyricScore
