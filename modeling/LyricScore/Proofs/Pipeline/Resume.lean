/-
Runs that are interrupted. Between two stages a table can be written out and read back in, and the
run goes on as if nothing had happened: the same tables, warnings and tune. The step is that a stage
hands on a table without line ends, which is read back as it was, and the next stage starts from the
same table; so the two runs agree stage by stage.
-/
import LyricScore.Proofs.Pipeline.Unbroken

namespace LyricScore

open Text

-- =============================================================== runs

/-- A table written out and read back in. -/
def Table.reload (t : Table) : Except Error Table :=
  t.dump >>= Table.read

/-- A table whose numbers are short enough to be written. -/
def Table.Writable (t : Table) : Prop :=
  ∀ r ∈ t, ∀ column, (r.record column).canWrite = true

theorem Table.Unbroken.reload {t : Table} (h : t.Unbroken) (hfits : t.Writable) :
    t.reload = .ok t :=
  bind_eq_ok.2 ⟨_, Table.dump_eq_ok hfits, (Table.read_dumpText_iff hfits).2 h⟩

/-- Run stages one behind the other, and behind one of them write the table out and read it back in
for the next. -/
def resumeStages (stop : Stage) (c : Context) (t : Table) : List Stage → Trace
  | [] => ⟨[], c, none⟩
  | s :: rest =>
    match s.run c t with
    | .error e => ⟨[], c, some ⟨some s, e⟩⟩
    | .ok (next, table) =>
      match if s = stop then table.reload else .ok table with
      | .error e => ⟨[], next, some ⟨some s, e⟩⟩
      | .ok handed =>
        let more := resumeStages stop next handed rest
        let step : Step :=
          ⟨s.name, handed, next.figuresOf s.name, next.warnings.drop c.warnings.length⟩
        { more with steps := step :: more.steps }

/-- Run an input, and behind one stage write the table out and read it back in for the next. -/
def resumed (stop : Stage) (input : Input) (o : Options) : Trace :=
  match o.complaint? with
  | some e => .failed o e
  | none =>
    match input.load with
    | .error e => .failed o e
    | .ok piece =>
      let more := resumeStages stop (.start o piece) [] o.stages
      { more with steps := ⟨readingName, [], piece.figures, []⟩ :: more.steps }

/-- The stages do not change the title. -/
theorem Stage.run_title {stage : Stage} {c c' : Context} {t t' : Table}
    (h : stage.run c t = .ok (c', t')) : c'.title = c.title := by
  obtain ⟨hoptions, hpiece⟩ := Stage.run_keeps h
  unfold Context.title
  rw [hoptions, hpiece]

/-- The title of a score is unbroken, or the one in its place is. -/
theorem Score.WellFormed.isUnbroken_title {s : Score} (hs : s.WellFormed) {o : Options}
    (ho : ∀ title ∈ o.title, IsUnbroken title) {title : String}
    (h : (Context.start o (.ofScore s)).title = .ok title) : IsUnbroken title := by
  cases hgiven : o.title with
  | some given =>
      have hsame : Context.title (.start o (.ofScore s)) = .ok given := by
        unfold Context.title Context.start
        rw [hgiven]
      exact Except.ok.inj (hsame.symm.trans h) ▸ ho given hgiven
  | none =>
      have hown : Context.title (.start o (.ofScore s)) = .ok s.title := by
        unfold Context.title Context.start
        rw [hgiven]
        rfl
      obtain rfl := Except.ok.inj (hown.symm.trans h)
      rcases hs.1 with hempty | ⟨-, -, hline⟩
      · rw [hempty]
        exact .of_all rfl
      · intro c hc hraw
        have hend := hline c hc
        rw [isLineEnd_iff.2 (Or.inr hraw)] at hend
        cases hend

/-- A stage that hands its table on as it is. -/
theorem resumeStages_cons {stop stage : Stage} {c next : Context} {t table : Table}
    {rest : List Stage} (hrun : stage.run c t = .ok (next, table))
    (hreload : stage = stop → table.reload = .ok table)
    (hrest : resumeStages stop next table rest = runStages next table rest) :
    resumeStages stop c t (stage :: rest) = runStages c t (stage :: rest) := by
  have hhanded : (if stage = stop then table.reload else .ok table) = .ok table := by
    split
    · next heq => exact hreload heq
    · rfl
  unfold resumeStages runStages
  rw [hrun]
  dsimp only
  rw [hhanded]
  dsimp only
  rw [hrest]

/-- The table behind a stage, and those behind the rest. -/
theorem mem_steps_cons {stage : Stage} {c next : Context} {t table : Table} {rest : List Stage}
    (hrun : stage.run c t = .ok (next, table)) {P : Step → Prop}
    (h : ∀ step ∈ (runStages c t (stage :: rest)).steps, P step) :
    (∃ step, step.name = stage.name ∧ step.table = table ∧ P step)
      ∧ ∀ step ∈ (runStages next table rest).steps, P step := by
  unfold runStages at h
  rw [hrun] at h
  obtain ⟨hfirst, hrest⟩ := List.forall_mem_cons.1 h
  exact ⟨⟨_, rfl, rfl, hfirst⟩, hrest⟩

/-- From an unbroken table on, stages behind the layout do the same with an interruption. -/
theorem resumeStages_eq {s : Score} {stop : Stage} {c : Context} {t : Table} {stages : List Stage}
    (hlayout : .layout ∉ stages) (htitle : ∀ title, c.title = .ok title → IsUnbroken title)
    (hrenders : t.Renders s) (ht : t.Unbroken)
    (hfits : ∀ step ∈ (runStages c t stages).steps, step.name = stop.name → step.table.Writable) :
    resumeStages stop c t stages = runStages c t stages := by
  induction stages generalizing c t with
  | nil => rfl
  | cons stage rest ih =>
      have hstage : stage ≠ .layout := fun heq => hlayout (heq ▸ List.mem_cons_self)
      cases hrun : stage.run c t with
      | error e =>
          unfold resumeStages runStages
          rw [hrun]
      | ok out =>
          obtain ⟨next, table⟩ := out
          obtain ⟨⟨step, hname, rfl, hstep⟩, hrest⟩ := mem_steps_cons hrun hfits
          have htable := Stage.run_unbroken hrun hstage htitle hrenders.sound ht
          refine resumeStages_cons hrun (fun heq => htable.reload (hstep (heq ▸ hname))) ?_
          exact ih (fun hmem => hlayout (List.mem_cons_of_mem _ hmem))
            (fun title h => htitle title ((Stage.run_title hrun).symm.trans h))
            (Stage.run_renders_of_renders hrun hstage hrenders) htable hrest

/-- A run can be interrupted behind any stage. If the numbers of the table there can be written, and
the title that a caller gave, if any, has no line end that is not escaped, then the run that goes on
with the table read back in has the same trace: the same tables, warnings, figures and tune. -/
theorem resumed_eq_trace {text : String} {o : Options} (stop : Stage)
    (htitle : ∀ title ∈ o.title, ∀ c ∈ title.toList, c ∉ rawBreaks)
    (hfits : ∀ step ∈ (trace (.text text) o).steps, step.name = stop.name → step.table.Writable) :
    resumed stop (.text text) o = trace (.text text) o := by
  unfold trace at hfits
  unfold resumed trace
  cases hcomplaint : o.complaint? with
  | some e => rfl
  | none =>
      cases hload : (Input.text text).load with
      | error e => rfl
      | ok piece =>
          obtain ⟨s, hparse, rfl⟩ := map_eq_ok.1 hload
          have hs := Reader.wellFormed_of_parse hparse
          rw [hcomplaint, hload] at hfits
          have hsteps := (List.forall_mem_cons.1 hfits).2
          suffices hstages : resumeStages stop (.start o (.ofScore s)) [] o.stages
              = runStages (.start o (.ofScore s)) [] o.stages by
            dsimp only
            rw [hstages]
          rcases o.stages_eq with hnone | ⟨rest, hstages, hlayout⟩
          · rw [hnone]
            rfl
          · rw [hstages] at hsteps ⊢
            have hrun : Stage.layout.run (.start o (.ofScore s)) [] = .ok (_, s.layout) := rfl
            obtain ⟨⟨step, hname, htable, hstep⟩, hrest⟩ := mem_steps_cons hrun hsteps
            have hunbroken : s.layout.Unbroken := fun r hr => unbroken_of_mem_layout hs hr
            refine resumeStages_cons hrun (fun heq => hunbroken.reload ?_) ?_
            · exact htable ▸ hstep (heq ▸ hname)
            · exact resumeStages_eq hlayout (fun title h => hs.isUnbroken_title htitle h)
                (Score.layout_renders hs) hunbroken hrest

/-- A run with a title of two lines, with a tab and a backslash. -/
def escapedTitle : Options :=
  { title := some "Two\nlines\t\\N" }

/-- A held note, a triplet and a change of key. -/
def heldTriplet : String :=
  "la - | la.la.la ;\nc | K#1 d e f"

theorem resumed_eq_trace_heldTriplet :
    (run (.text heldTriplet) escapedTitle).isOk = true
      ∧ resumed .ties (.text heldTriplet) escapedTitle
        = trace (.text heldTriplet) escapedTitle := by
  have hshort : ((trace (.text heldTriplet) escapedTitle).steps.all fun step => step.table.all
      fun r => Column.all.all fun column => (r.record column).isShort) = true := by decide +kernel
  refine ⟨by decide +kernel, resumed_eq_trace .ties (fun title htitle => ?_) fun step hstep _ => ?_⟩
  · obtain rfl := Option.some.inj htitle
    exact forall_mem_of_all (by decide)
  · exact Table.canWrite_of_short (List.all_eq_true.1 hshort step hstep)

end LyricScore
