/-
Words do not sound. Two scores that differ only in what their attacks are sung on run alike: they
fail alike or give the same tune and the same notes, and at every step their tables differ in the
words of attacks and in nothing else.

The proof does not compare the two runs. Both scores become the same one when every attack is sung
on `*`, and each stage takes a table without words to its result without words; so does the run,
and the two runs, seen without words, are the run of one score.
-/
import LyricScore.Pipeline.Run
import LyricScore.Proofs.Pipeline.Footprint
import LyricScore.Proofs.Table.Wordless

namespace LyricScore

-- ============================================================= trees

namespace Node

/-- A node that starts a note: a syllable, or the marker for none. -/
def isAttack : Node → Bool
  | .syllable _ => true
  | .special value => value == Marker.attack.text
  | _ => false

/-- Two segments that differ at most in what they attack on. -/
def SegmentAlike (n n' : Node) : Prop :=
  n = n' ∨ n.isAttack = true ∧ n'.isAttack = true

/-- Two items of a lyric line that differ at most in what their attacks are sung on. -/
inductive LyricAlike : Node → Node → Prop where
  | same (n : Node) : LyricAlike n n
  | beat {content content' : List Node} (duration : Int)
      (h : List.Forall₂ SegmentAlike content content') :
      LyricAlike (.beat content duration) (.beat content' duration)

/-- Two blocks that differ at most in what their attacks are sung on. -/
inductive BlockAlike : Node → Node → Prop where
  | same (n : Node) : BlockAlike n n
  | block {lyrics lyrics' : List Node} (pitches : Node) (counter : Option Int)
      (h : List.Forall₂ LyricAlike lyrics lyrics') :
      BlockAlike (.block lyrics pitches counter) (.block lyrics' pitches counter)

end Node

-- ============================================================ scores

/-- A segment whose attack is sung on no syllable. -/
def Segment.wordless : Segment → Segment
  | .syllable _ => .marker .attack
  | .marker m => .marker m

/-- An item whose attacks are sung on no syllable. -/
def LyricItem.wordless : LyricItem → LyricItem
  | .beat b => .beat { b with segments := b.segments.map Segment.wordless }
  | item => item

/-- A block whose attacks are sung on no syllable. -/
def Block.wordless (b : Block) : Block :=
  { b with lyrics := b.lyrics.map LyricItem.wordless }

/-- A score whose attacks are sung on no syllable. -/
def Score.wordless (s : Score) : Score :=
  { s with blocks := s.blocks.map Block.wordless }

/-- Lists whose elements are read alike are read alike. -/
theorem mapM_congr_map {ε α β γ : Type} {f : α → Except ε β} {k : β → γ} {l l' : List α}
    (h : List.Forall₂ (fun a a' => (f a).map k = (f a').map k) l l') :
    (l.mapM f).map (List.map k) = (l'.mapM f).map (List.map k) := by
  have hmap : ∀ l : List α, (l.mapM f).map (List.map k) = l.mapM fun a => (f a).map k := by
    intro l
    have hid := @mapM_map ε α β α γ f (fun a => (f a).map k) id k (fun _ => rfl) l
    rw [List.map_id] at hid
    exact hid.symm
  rw [hmap, hmap]
  induction h with
  | nil => rfl
  | cons ha _ ih => rw [List.mapM_cons, List.mapM_cons, ha, ih]

theorem segment_alike {block : Nat} {n n' : Node} (h : n.SegmentAlike n') :
    (n.segment block).map Segment.wordless = (n'.segment block).map Segment.wordless := by
  have hattack : ∀ m : Node, m.isAttack = true →
      (m.segment block).map Segment.wordless = .ok (.marker .attack) := by
    intro m hm
    cases m with
    | syllable value => rfl
    | special value =>
        obtain rfl := eq_of_beq hm
        rfl
    | _ => cases hm
  rcases h with rfl | ⟨hn, hn'⟩
  · rfl
  · rw [hattack n hn, hattack n' hn']

theorem lyricItem_alike {block : Nat} {n n' : Node} (h : n.LyricAlike n') :
    (n.lyricItem block).map LyricItem.wordless = (n'.lyricItem block).map LyricItem.wordless := by
  cases h with
  | same => rfl
  | @beat content content' duration h =>
      have hread : ∀ content : List Node,
          ((Node.beat content duration).lyricItem block).map LyricItem.wordless
            = ((content.mapM (Node.segment block)).map (List.map Segment.wordless)).map
              fun segments => .beat ⟨segments, duration⟩ := by
        intro content
        simp only [Node.lyricItem]
        cases content.mapM (Node.segment block) <;> rfl
      rw [hread, hread, mapM_congr_map (h.imp fun _ _ => segment_alike)]

theorem blockOf_alike {number : Nat} {n n' : Node} (h : n.BlockAlike n') :
    (n.blockOf number).map Block.wordless = (n'.blockOf number).map Block.wordless := by
  cases h with
  | same => rfl
  | @block lyrics lyrics' pitches counter h =>
      have hread : ∀ lyrics : List Node,
          ((Node.block lyrics pitches counter).blockOf number).map Block.wordless
            = ((lyrics.mapM (Node.lyricItem number)).map (List.map LyricItem.wordless)).bind
              fun items => (pitches.pitchLineOf number).map fun line => ⟨items, line, counter⟩ := by
        intro lyrics
        simp only [Node.blockOf]
        cases lyrics.mapM (Node.lyricItem number) with
        | error e => rfl
        | ok items => cases pitches.pitchLineOf number <;> rfl
      rw [hread, hread, mapM_congr_map (h.imp fun _ _ => lyricItem_alike)]

theorem scoreOf_alike {blocks blocks' : List Node} (title : String)
    (h : List.Forall₂ Node.BlockAlike blocks blocks') :
    (Node.scoreOf blocks title).map Score.wordless = (Node.scoreOf blocks' title).map Score.wordless := by
  have hread : ∀ blocks : List Node, (Node.scoreOf blocks title).map Score.wordless
      = (((blocks.zipIdx 1).mapM fun b => Node.blockOf b.2 b.1).map (List.map Block.wordless)).map
        fun checked => ⟨checked, title⟩ := by
    intro blocks
    unfold Node.scoreOf
    cases (blocks.zipIdx 1).mapM fun b => Node.blockOf b.2 b.1 <;> rfl
  have hplaced : ∀ number, List.Forall₂
      (fun b b' : Node × Nat => (Node.blockOf b.2 b.1).map Block.wordless
        = (Node.blockOf b'.2 b'.1).map Block.wordless) (blocks.zipIdx number) (blocks'.zipIdx number) := by
    induction h with
    | nil => exact fun _ => .nil
    | cons hb _ ih => exact fun number => .cons (blockOf_alike hb) (ih (number + 1))
  rw [hread, hread, mapM_congr_map (hplaced 1)]

-- ============================================================ layout

theorem LyricBeat.rows_wordless (block : Int) (counter : Option Int) (measure beat : Int)
    (segments : List Segment) (duration : Int) :
    LyricBeat.rows block counter measure beat ⟨segments.map Segment.wordless, duration⟩
      = (LyricBeat.rows block counter measure beat ⟨segments, duration⟩).map Row.wordless := by
  unfold LyricBeat.rows
  dsimp only
  rw [List.zipIdx_map, List.map_map, List.map_map]
  refine List.map_congr_left fun s _ => ?_
  obtain ⟨segment, n⟩ := s
  cases segment with
  | syllable text => rfl
  | marker m => cases m <;> rfl

theorem lyricRows_wordless (block : Int) (counter : Option Int) (measure beat : Int)
    (items : List LyricItem) :
    lyricRows block counter measure beat (items.map LyricItem.wordless)
      = (lyricRows block counter measure beat items).map Row.wordless := by
  induction items generalizing measure beat with
  | nil => rfl
  | cons item items ih =>
      cases item with
      | barline => exact congrArg (_ :: ·) (ih _ _)
      | unit m => exact congrArg (_ :: ·) (ih _ _)
      | beat b =>
          simp only [List.map_cons, LyricItem.wordless, lyricRows, List.map_append, ih,
            LyricBeat.rows_wordless]

theorem pitchRows_wordless (block measure : Int) (items : List PitchItem) :
    Table.wordless (pitchRows block measure items) = pitchRows block measure items := by
  induction items generalizing measure with
  | nil => rfl
  | cons item items ih =>
      cases item with
      | barline => exact congrArg (_ :: ·) (ih _)
      | key k => exact congrArg (_ :: ·) (ih _)
      | pitch p => exact congrArg (_ :: ·) (ih _)

theorem Block.rows_wordless (number : Int) (b : Block) :
    b.wordless.rows number = Table.wordless (b.rows number) := by
  have hpitches := pitchRows_wordless number b.firstMeasure b.pitches.items
  have hopening : ((b.pitches.opening.map fun o => keyRow number b.firstMeasure o.text).toList).map
      Row.wordless = (b.pitches.opening.map fun o => keyRow number b.firstMeasure o.text).toList := by
    cases b.pitches.opening <;> rfl
  unfold Block.rows Table.wordless at *
  rw [List.map_append, List.map_append, hpitches, hopening, ← lyricRows_wordless]
  rfl

theorem Score.layout_wordless (s : Score) : s.wordless.layout = s.layout.wordless := by
  unfold Score.layout Table.wordless
  rw [List.map_flatMap, show s.wordless.blocks = s.blocks.map Block.wordless from rfl, List.zipIdx_map,
    List.flatMap_map]
  simp only [Prod.map, Block.rows_wordless, id_eq]
  rfl

-- ============================================================ stages

/-- A piece whose attacks are sung on no syllable. -/
def Piece.wordless (p : Piece) : Piece :=
  { p with score := p.score.map Score.wordless }

/-- A context that tells no words. -/
def Context.wordless (c : Context) : Context :=
  { c with piece := c.piece.wordless, warnings := c.warnings.map Warning.wordless }

theorem Context.record_wordless (c : Context) (stage : String) (figures : Figures) :
    (c.record stage figures).wordless = c.wordless.record stage figures := rfl

theorem Context.warn_wordless (c : Context) (warnings : List Warning) :
    (c.warn warnings).wordless = c.wordless.warn (warnings.map Warning.wordless) := by
  unfold Context.warn Context.wordless
  rw [List.map_append]

/-- What the marks of units and keys warn of has no words. -/
theorem map_wordless_warnings (ds : List Declaration) :
    (ds.flatMap Units.warnings).map Warning.wordless = ds.flatMap Units.warnings := by
  rw [List.map_flatMap]
  congr 1
  funext d
  unfold Units.warnings
  cases d.known <;> cases d.target <;> rfl

theorem map_wordless_keyWarnings (ms : List KeyMark) :
    (ms.flatMap Keys.warnings).map Warning.wordless = ms.flatMap Keys.warnings := by
  rw [List.map_flatMap]
  congr 1
  funext m
  unfold Keys.warnings
  cases m.known <;> cases m.effect <;> rfl

namespace Stage

theorem layoutFigures_wordless (t : Table) : layoutFigures t.wordless = layoutFigures t := by
  have hrows : ∀ source, rowsFrom source t.wordless = rowsFrom source t := by
    intro source
    unfold rowsFrom Table.wordless
    rw [List.filter_map, List.length_map]
    rfl
  unfold layoutFigures
  rw [hrows, hrows, Table.wordless, List.length_map]

theorem voicingFigures_wordless (t : Table) : voicingFigures t.wordless = voicingFigures t := by
  unfold voicingFigures Table.wordless
  rw [List.filterMap_map]
  rfl

theorem underlayFigures_wordless (rows : List (Row × Fate)) :
    underlayFigures (rows.map fun p => (p.1.wordless, p.2)) = underlayFigures rows := by
  have hfates : ∀ fates, fateCount fates (rows.map fun p => (p.1.wordless, p.2))
      = fateCount fates rows := by
    intro fates
    unfold fateCount
    rw [List.filter_map, List.length_map]
    rfl
  unfold underlayFigures
  rw [hfates, hfates, hfates, hfates]

theorem unitsUsed_wordless (t : Table) : unitsUsed t.wordless = unitsUsed t := by
  unfold unitsUsed Table.wordless
  rw [List.filterMap_map]
  rfl

theorem unitFigures_wordless (t : Table) : unitFigures t.wordless = unitFigures t := by
  unfold unitFigures
  rw [unitsUsed_wordless, Table.wordless, List.filter_map, List.length_map]
  rfl

theorem meterFigures_wordless (ms : List Measure) :
    meterFigures (ms.map Measure.wordless) = meterFigures ms := by
  unfold meterFigures
  rw [List.map_map, List.length_map]
  rfl

/-- A stage does not see words. -/
theorem run_wordless (s : Stage) (c : Context) (t : Table) :
    s.run c.wordless t.wordless = (s.run c t).map fun p => (p.1.wordless, p.2.wordless) := by
  cases s with
  | layout =>
      have hscore : c.wordless.piece.score = c.piece.score.map Score.wordless := rfl
      simp only [run, hscore]
      cases c.piece.score with
      | error e => rfl
      | ok score =>
          simp only [Except.map, bind, Except.bind, pure, Except.pure, Context.record_wordless,
            Score.layout_wordless, layoutFigures_wordless]
  | voicing =>
      simp only [run, Table.voiced_wordless]
      cases t.voiced with
      | error e => rfl
      | ok voiced =>
          simp only [Except.map, bind, Except.bind, pure, Except.pure, Context.record_wordless,
            voicingFigures_wordless]
  | underlay =>
      have hrows : (t.underlaid.map fun p => (p.1.wordless, p.2)).map (·.1)
          = Table.wordless (t.underlaid.map (·.1)) := by
        rw [Table.wordless, List.map_map, List.map_map]
        rfl
      simp only [run, Table.underlaid_wordless, underlayFigures_wordless, hrows,
        Table.underlayWarnings_wordless, Except.map, Context.record_wordless, Context.warn_wordless]
  | heading =>
      have htitle : c.wordless.title = c.title := rfl
      simp only [run, htitle]
      cases c.title with
      | error e => rfl
      | ok title =>
          simp only [Except.map, bind, Except.bind, pure, Except.pure, Context.record_wordless,
            Table.withHeading_wordless]
  | units =>
      simp only [run, Table.declarations_wordless]
      cases t.declarations with
      | error e => rfl
      | ok ds =>
          simp only [bind, Except.bind, Table.withUnitsOf_wordless, unitsUsed_wordless]
          split
          · simp only [Except.map, pure, Except.pure, Context.record_wordless, Context.warn_wordless,
              map_wordless_warnings, unitFigures_wordless]
          · rfl
  | meters =>
      simp only [run, Table.withMeters_wordless, Table.measures_wordless, meterFigures_wordless]
      cases t.withMeters <;> rfl
  | keys =>
      simp only [run, Table.keyMarks_wordless, Table.withKeys_wordless, Except.map,
        Context.record_wordless, Context.warn_wordless, map_wordless_keyWarnings]
  | notes =>
      simp only [run, Table.withNotes_wordless, Table.noteCounts_wordless]
      cases t.withNotes <;> rfl
  | ties =>
      have hfold : c.wordless.options.fold = c.options.fold := rfl
      simp only [run, hfold, Table.withTies_wordless]
      cases t.withTies c.options.fold <;> rfl
  | assembly =>
      simp only [run, Table.tune_wordless]
      rfl

end Stage

-- ============================================================== runs

/-- A step that tells no words. -/
def Step.wordless (s : Step) : Step :=
  { s with table := s.table.wordless, warnings := s.warnings.map Warning.wordless }

/-- A trace that tells no words. -/
def Trace.wordless (tr : Trace) : Trace :=
  { tr with steps := tr.steps.map Step.wordless, context := tr.context.wordless }

theorem runStages_wordless (c : Context) (t : Table) (stages : List Stage) :
    runStages c.wordless t.wordless stages = (runStages c t stages).wordless := by
  induction stages generalizing c t with
  | nil => rfl
  | cons s stages ih =>
      simp only [runStages, s.run_wordless]
      cases s.run c t with
      | error e => rfl
      | ok out =>
          obtain ⟨next, table⟩ := out
          have hdrop : next.wordless.warnings.drop c.wordless.warnings.length
              = (next.warnings.drop c.warnings.length).map Warning.wordless := by
            unfold Context.wordless
            rw [List.map_drop, List.length_map]
          simp only [Except.map, ih, hdrop]
          rfl

/-- Two scores that differ only in what their attacks are sung on run alike, seen without words. -/
theorem trace_alike {blocks blocks' : List Node} (title : String)
    (h : List.Forall₂ Node.BlockAlike blocks blocks') (o : Options) :
    (trace (.tree (.score blocks title)) o).wordless = (trace (.tree (.score blocks' title)) o).wordless := by
  have hpiece : (Piece.ofNode (.score blocks title)).wordless
      = (Piece.ofNode (.score blocks' title)).wordless := by
    unfold Piece.ofNode Piece.wordless
    simp only [scoreOf_alike title h, h.length_eq]
  have hfigures : (Piece.ofNode (.score blocks title)).figures
      = (Piece.ofNode (.score blocks' title)).figures := by
    have hfigures := congrArg Piece.figures hpiece
    exact hfigures
  have hmore : (runStages (.start o (.ofNode (.score blocks title))) [] o.stages).wordless
      = (runStages (.start o (.ofNode (.score blocks' title))) [] o.stages).wordless := by
    have hstart : ∀ p, (Context.start o p).wordless = .start o p.wordless := fun _ => rfl
    rw [← runStages_wordless, ← runStages_wordless, hstart, hstart, hpiece]
  have hcons : ∀ (step : Step) (more : Trace), Trace.wordless { more with steps := step :: more.steps }
      = { more.wordless with steps := step.wordless :: more.wordless.steps } := fun _ _ => rfl
  unfold trace
  cases o.complaint? with
  | some e => rfl
  | none =>
      simp only [Input.load]
      rw [hcons, hcons, hmore, hfigures]

/-- A result that tells no words. -/
def Result.wordless (r : Result) : Result :=
  { r with
    table := r.table.wordless
    piece := r.piece.wordless
    warnings := r.warnings.map Warning.wordless }

theorem Trace.result_wordless (tr : Trace) : tr.wordless.result = tr.result.map Result.wordless := by
  have hlast : tr.wordless.steps.getLast? = tr.steps.getLast?.map Step.wordless := List.getLast?_map
  unfold Trace.result
  rw [show tr.wordless.failure = tr.failure from rfl, hlast]
  cases tr.failure with
  | some f => rfl
  | none => cases tr.steps.getLast? <;> rfl

/-- Two rows that differ at most in the words of an attack. -/
def Row.Alike (r r' : Row) : Prop :=
  r'.isAttack = r.isAttack ∧ r.Keeps (if r.isAttack then [.kind, .raw] else []) r'

theorem Row.alike_of_wordless {r r' : Row} (h : r.wordless = r'.wordless) : r.Alike r' := by
  have hattack : r'.isAttack = r.isAttack := by
    rw [← r.isAttack_wordless, h, r'.isAttack_wordless]
  refine ⟨hattack, ?_⟩
  cases hr : r.isAttack with
  | true =>
      intro column hcolumn
      have hcell := congrArg (·.record column) h
      cases column <;> simp_all [Row.record, Row.wordless]
  | false =>
      rw [Row.wordless_eq_self hr, Row.wordless_eq_self (hattack.trans hr)] at h
      exact h ▸ Row.Keeps.refl _ r

/-- Two steps of one name whose tables differ at most in the words of attacks, with as many
warnings. -/
structure Step.Alike (s s' : Step) : Prop where
  name : s'.name = s.name
  table : List.Forall₂ Row.Alike s.table s'.table
  warnings : s'.warnings.length = s.warnings.length

/-- Lists with one image go element by element. -/
theorem forall₂_of_map_eq {α β : Type} {f : α → β} {l l' : List α} (h : l.map f = l'.map f) :
    List.Forall₂ (fun a a' => f a = f a') l l' := by
  rw [← List.forall₂_eq_eq_eq, List.forall₂_map_left_iff, List.forall₂_map_right_iff] at h
  exact h

theorem Step.alike_of_wordless {s s' : Step} (h : s.wordless = s'.wordless) : s.Alike s' := by
  have hwarnings : s'.warnings.map Warning.wordless = s.warnings.map Warning.wordless :=
    congrArg Step.warnings h.symm
  have hname : s.wordless.name = s'.wordless.name := congrArg Step.name h
  refine ⟨hname.symm, ?_, by simpa using congrArg List.length hwarnings⟩
  exact (forall₂_of_map_eq (congrArg Step.table h)).imp fun _ _ => Row.alike_of_wordless

/-- Words do not sound: two scores with one title that differ only in what their attacks are sung
on fail alike or give the same tune, the same notes and as many warnings, and their tables differ at
every step in the words of attacks at most. -/
theorem run_alike {blocks blocks' : List Node} (title : String)
    (h : List.Forall₂ Node.BlockAlike blocks blocks') (o : Options) :
    List.Forall₂ Step.Alike (trace (.tree (.score blocks title)) o).steps
        (trace (.tree (.score blocks' title)) o).steps
      ∧ ((∃ e, run (.tree (.score blocks title)) o = .error e
            ∧ run (.tree (.score blocks' title)) o = .error e)
        ∨ ∃ result result', run (.tree (.score blocks title)) o = .ok result
            ∧ run (.tree (.score blocks' title)) o = .ok result'
            ∧ result'.tune = result.tune ∧ result'.table.events = result.table.events
            ∧ result'.warnings.length = result.warnings.length) := by
  have htrace := trace_alike title h o
  have hsteps := forall₂_of_map_eq (congrArg Trace.steps htrace)
  refine ⟨hsteps.imp fun _ _ => Step.alike_of_wordless, ?_⟩
  have hresult := congrArg Trace.result htrace
  rw [Trace.result_wordless, Trace.result_wordless] at hresult
  unfold run
  cases hrun : (trace (.tree (.score blocks title)) o).result with
  | error e =>
      cases hrun' : (trace (.tree (.score blocks' title)) o).result with
      | error e' =>
          rw [hrun, hrun'] at hresult
          obtain rfl := Except.error.inj hresult
          exact .inl ⟨_, rfl, rfl⟩
      | ok result' =>
          rw [hrun, hrun'] at hresult
          cases hresult
  | ok result =>
      cases hrun' : (trace (.tree (.score blocks' title)) o).result with
      | error e' =>
          rw [hrun, hrun'] at hresult
          cases hresult
      | ok result' =>
          rw [hrun, hrun'] at hresult
          have hsame : result.wordless = result'.wordless := Except.ok.inj hresult
          have htune : result.wordless.tune = result'.wordless.tune := congrArg Result.tune hsame
          have htable : result.table.wordless = result'.table.wordless := congrArg Result.table hsame
          have hwarnings := congrArg (fun r : Result => r.warnings.length) hsame
          refine .inr ⟨result, result', rfl, rfl, htune.symm, ?_, ?_⟩
          · rw [← result.table.events_wordless, htable, result'.table.events_wordless]
          · simpa [Result.wordless] using hwarnings.symm

/-- A syllable that reads like a field of the heading, in place of an attack on none; the held note
goes on, and a second attack has no pitch. -/
theorem run_alike_field :
    let sung := fun word : Node => [Node.block [.beat [word, .special "-"] 1, .barline, .beat [word] 2]
      (.pitchLine (.keySignature (some "#") 1) [.pitch "f" none ""]) none]
    List.Forall₂ Node.BlockAlike (sung (.syllable "K")) (sung (.special "*"))
      ∧ ∃ result result', run (.tree (.score (sung (.syllable "K")) "")) {} = .ok result
        ∧ run (.tree (.score (sung (.special "*")) "")) {} = .ok result'
        ∧ result'.tune = result.tune ∧ result'.table.events = result.table.events
        ∧ result'.warnings.length = result.warnings.length := by
  intro sung
  have halike : List.Forall₂ Node.BlockAlike (sung (.syllable "K")) (sung (.special "*")) := by
    refine .cons (.block _ _ ?_) .nil
    refine .cons (.beat _ ?_) (.cons (.same _) (.cons (.beat _ ?_) .nil))
    · exact .cons (.inr ⟨rfl, rfl⟩) (.cons (.inl rfl) .nil)
    · exact .cons (.inr ⟨rfl, rfl⟩) .nil
  have hok : (run (.tree (.score (sung (.syllable "K")) "")) {}).isOk = true := by decide +kernel
  refine ⟨halike, ?_⟩
  rcases (run_alike "" halike {}).2 with ⟨e, he, -⟩ | hresults
  · rw [he] at hok
    cases hok
  · exact hresults

end LyricScore
