/-
What the underlay gives out. Each block has pitches of its own, and its attacks take them in turn:
the k-th attack of a block takes the k-th pitch, whatever stands between them, and an attack beyond
the last pitch stays as it is, with a warning. Inside a block a hold goes on with the nearest attack
or rest. So no pitch is lost, sung twice or taken from another block, and the figures add up.

# The state behind some rows

The underlay is one walk over the rows. `Underlay.behind` is the state to which it comes behind some
of them, and `Underlay.outcome` is what it makes of the next one, so each law is about a row and the
rows before it: the attacks before it are counted (`count_attacks_behind`), and what sounds stays
until the next attack or rest of the block (`behind_of_steady`).
-/
import LyricScore.Pipeline.Stage
import LyricScore.Proofs.Table.Classes
import LyricScore.Proofs.Table.Outline

namespace LyricScore

-- ============================================================ counts

/-- How many rows of a block are of some sort. -/
def Table.countIn (t : Table) (sort : Row → Bool) (block : Int) : Nat :=
  t.countP fun r => sort r && decide (r.block = block)

/-- A row of a pitch line that is a pitch. -/
def Row.isPitch (r : Row) : Bool :=
  r.source == .pitch && r.kind == .pitch

theorem Table.countIn_cons (r : Row) (t : Table) (sort : Row → Bool) (block : Int) :
    Table.countIn (r :: t) sort block
      = t.countIn sort block + if sort r = true ∧ r.block = block then 1 else 0 := by
  unfold Table.countIn
  rw [List.countP_cons]
  simp

theorem Table.countIn_append (t t' : Table) (sort : Row → Bool) (block : Int) :
    Table.countIn (t ++ t') sort block = t.countIn sort block + t'.countIn sort block :=
  List.countP_append

/-- A block of which a table has no row of some sort. -/
theorem Table.countIn_eq_zero {t : Table} {sort : Row → Bool} {block : Int}
    (h : ∀ r ∈ t, sort r = true → r.block ≠ block) : t.countIn sort block = 0 := by
  refine List.countP_eq_zero.2 fun r hr hsort => ?_
  rw [Bool.and_eq_true, decide_eq_true_eq] at hsort
  exact h r hr hsort.1 hsort.2

theorem isPitch_iff {r : Row} : r.isPitch = true ↔ r.source = .pitch ∧ r.kind = .pitch := by
  simp [Row.isPitch]

-- ===================================================== the walk

namespace Underlay

variable (continues : Int → Bool) (tones : Int → List Tone)

/-- The state behind a row of any line. -/
def advance (s : State) (r : Row) : State :=
  if r.source = .lyric then (step tones (s.enter continues r) r).1 else s

/-- The state behind some rows. -/
def behind (s : State) (rows : List Row) : State :=
  rows.foldl (advance continues tones) s

/-- What becomes of a row. -/
def outcome (s : State) (r : Row) : Row × Fate :=
  if r.source = .lyric then (step tones (s.enter continues r) r).2 else (r, .other)

theorem run_cons (s : State) (r : Row) (rest : List Row) :
    run continues tones s (r :: rest)
      = outcome continues tones s r :: run continues tones (advance continues tones s r) rest := by
  rw [run, outcome, advance]
  split <;> rfl

theorem behind_cons (s : State) (r : Row) (rows : List Row) :
    behind continues tones s (r :: rows)
      = behind continues tones (advance continues tones s r) rows :=
  rfl

theorem behind_append (s : State) (before after : List Row) :
    behind continues tones s (before ++ after)
      = behind continues tones (behind continues tones s before) after :=
  List.foldl_append

/-- What comes behind some rows depends on them through the state only. -/
theorem run_append (s : State) (before after : List Row) :
    run continues tones s (before ++ after)
      = run continues tones s before
        ++ run continues tones (behind continues tones s before) after := by
  induction before generalizing s with
  | nil => rfl
  | cons r before ih =>
      rw [List.cons_append, run_cons, run_cons, ih, behind_cons, List.cons_append]

theorem length_run (s : State) (rows : List Row) :
    (run continues tones s rows).length = rows.length := by
  induction rows generalizing s with
  | nil => rfl
  | cons r rows ih => rw [run_cons, List.length_cons, ih, List.length_cons]

/-- What becomes of the row behind some others. -/
theorem getElem?_run (s : State) (before after : List Row) (r : Row) :
    (run continues tones s (before ++ r :: after))[before.length]?
      = some (outcome continues tones (behind continues tones s before) r) := by
  have hlength := length_run continues tones s before
  rw [run_append, List.getElem?_append_right (Nat.le_of_eq hlength), hlength, Nat.sub_self,
    run_cons, List.getElem?_cons_zero]

-- ------------------------------------------------------- one row

variable {continues tones} {s : State} {r : Row}

/-- What one step of the underlay can do. An attack takes the next tone of its block, or stays
silent if none is left; a hold goes on with what sounds, if anything does; a rest ends what sounds;
any other row changes nothing. -/
inductive Stepped (tones : Int → List Tone) (s : State) (r : Row) : State × Row × Fate → Prop where
  | sung {tone : Tone} (hattack : r.isAttack = true)
      (htone : (tones r.block)[s.attacks.count r.block]? = some tone) :
      Stepped tones s r
        ({ s with sounding := some tone, lastAttack := some tone, attacks := r.block :: s.attacks },
          r.withTone tone, .sung)
  | silent (hattack : r.isAttack = true)
      (htone : (tones r.block)[s.attacks.count r.block]? = none) :
      Stepped tones s r
        ({ s with sounding := none, lastAttack := none, attacks := r.block :: s.attacks }, r, .silent)
  | held {tone : Tone} (hhold : r.isHold = true) (hsounding : s.sounding = some tone) :
      Stepped tones s r (s, r.withTone tone, .held)
  | unheld (hhold : r.isHold = true) (hsounding : s.sounding = none) :
      Stepped tones s r (s, r, .unheld)
  | rest (hattack : r.isAttack = false) (hhold : r.isHold = false) (hrest : r.kind = .rest) :
      Stepped tones s r ({ s with sounding := none }, r, .other)
  | other (hattack : r.isAttack = false) (hhold : r.isHold = false) (hrest : r.kind ≠ .rest) :
      Stepped tones s r (s, r, .other)

theorem step_stepped (tones : Int → List Tone) (s : State) (r : Row) :
    Stepped tones s r (step tones s r) := by
  unfold step
  by_cases hattack : r.isAttack = true
  · rw [if_pos hattack]
    dsimp only
    cases htone : (tones r.block)[s.attacks.count r.block]? with
    | some tone => exact .sung hattack htone
    | none => exact .silent hattack htone
  rw [if_neg hattack]
  by_cases hhold : r.isHold = true
  · rw [if_pos hhold]
    cases hsounding : s.sounding with
    | some tone => exact .held hhold hsounding
    | none => exact .unheld hhold hsounding
  rw [if_neg hhold]
  rw [Bool.not_eq_true] at hattack hhold
  by_cases hrest : r.kind = .rest
  · rw [if_pos hrest]
    exact .rest hattack hhold hrest
  · rw [if_neg hrest]
    exact .other hattack hhold hrest

theorem attacks_enter (continues : Int → Bool) (s : State) (r : Row) :
    (s.enter continues r).attacks = s.attacks := by
  unfold State.enter
  split <;> rfl

theorem block_enter (continues : Int → Bool) (s : State) (r : Row) :
    (s.enter continues r).block = some r.block := by
  unfold State.enter
  split
  · next hblock => exact hblock
  · rfl

theorem enter_of_block (continues : Int → Bool) (h : s.block = some r.block) :
    s.enter continues r = s :=
  if_pos h

/-- An attack takes the next tone of its block, if there is one left. -/
theorem outcome_of_attack (h : r.isAttack = true) {tone? : Option Tone}
    (htone : (tones r.block)[s.attacks.count r.block]? = tone?) :
    outcome continues tones s r
      = ((tone?.map r.withTone).getD r, if tone?.isSome then .sung else .silent) := by
  rw [outcome, if_pos (source_of_isAttack h), step, if_pos h]
  dsimp only
  rw [attacks_enter, htone]
  cases tone? <;> rfl

theorem advance_of_attack (h : r.isAttack = true) {tone? : Option Tone}
    (htone : (tones r.block)[s.attacks.count r.block]? = tone?) :
    advance continues tones s r
      = { sounding := tone?, lastAttack := tone?, block := some r.block,
          attacks := r.block :: s.attacks } := by
  rw [advance, if_pos (source_of_isAttack h), step, if_pos h]
  dsimp only
  rw [attacks_enter, block_enter, htone]
  cases tone? <;> rfl

/-- A hold goes on with what sounds. -/
theorem outcome_of_hold (h : r.isHold = true) {tone? : Option Tone}
    (htone : (s.enter continues r).sounding = tone?) :
    outcome continues tones s r
      = ((tone?.map r.withTone).getD r, if tone?.isSome then .held else .unheld) := by
  rw [outcome, if_pos (source_of_isHold h), step, if_neg (by simp [isAttack_of_isHold h]), if_pos h,
    htone]
  cases tone? <;> rfl

/-- A row that neither attacks nor holds stays as it is. -/
theorem outcome_of_other (hattack : r.isAttack = false) (hhold : r.isHold = false) :
    outcome continues tones s r = (r, .other) := by
  simp only [outcome, step, hattack, hhold, Bool.false_eq_true, if_false]
  split
  · split <;> rfl
  · rfl

theorem advance_of_rest (hsource : r.source = .lyric) (hkind : r.kind = .rest) :
    (advance continues tones s r).sounding = none
      ∧ (advance continues tones s r).block = some r.block := by
  have hattack : ¬ r.isAttack = true := by simp [Row.isAttack, hkind, Kind.isAttack]
  have hhold : ¬ r.isHold = true := by simp [Row.isHold, hkind, Kind.isHold]
  rw [advance, if_pos hsource, step, if_neg hattack, if_neg hhold, if_pos hkind]
  exact ⟨rfl, block_enter continues s r⟩

/-- Only attacks are counted. -/
theorem attacks_advance (continues : Int → Bool) (tones : Int → List Tone) (s : State) (r : Row) :
    (advance continues tones s r).attacks
      = if r.isAttack = true then r.block :: s.attacks else s.attacks := by
  unfold advance
  split
  · rw [← attacks_enter continues s r]
    have hstep := step_stepped tones (s.enter continues r) r
    generalize step tones (s.enter continues r) r = out at hstep ⊢
    cases hstep with
    | sung hattack => rw [if_pos hattack]
    | silent hattack => rw [if_pos hattack]
    | held hhold => rw [isAttack_of_isHold hhold, if_neg Bool.false_ne_true]
    | unheld hhold => rw [isAttack_of_isHold hhold, if_neg Bool.false_ne_true]
    | rest hattack => rw [hattack, if_neg Bool.false_ne_true]
    | other hattack => rw [hattack, if_neg Bool.false_ne_true]
  · next hsource =>
    rw [if_neg (by simp [Row.isAttack, hsource])]

theorem count_attacks_behind (continues : Int → Bool) (tones : Int → List Tone) (s : State)
    (rows : List Row) (block : Int) :
    (behind continues tones s rows).attacks.count block
      = s.attacks.count block + Table.countIn rows Row.isAttack block := by
  induction rows generalizing s with
  | nil => rfl
  | cons r rows ih =>
      rw [behind_cons, ih, attacks_advance, Table.countIn_cons]
      split
      · next hattack =>
        rw [List.count_cons]
        simp only [hattack, true_and, beq_iff_eq]
        omega
      · next hattack => simp [hattack]

end Underlay

-- ======================================================= cuts

/-- A row that decides what the holds behind it in its block go on with: an attack or a rest. -/
def Row.cuts (r : Row) : Bool :=
  r.isAttack || (r.source == .lyric && r.kind == .rest)

namespace Underlay

variable {continues : Int → Bool} {tones : Int → List Tone} {s : State}

/-- Behind an attack or a rest, what sounds is what the attack sings. -/
theorem advance_of_cuts (continues : Int → Bool) (tones : Int → List Tone) (s : State) {r : Row}
    (h : r.cuts = true) :
    (advance continues tones s r).sounding
        = (if r.isAttack = true then (tones r.block)[s.attacks.count r.block]? else none)
      ∧ (advance continues tones s r).block = some r.block := by
  by_cases hattack : r.isAttack = true
  · rw [if_pos hattack, advance_of_attack hattack rfl]
    exact ⟨rfl, rfl⟩
  · rw [if_neg hattack]
    simp only [Row.cuts, hattack, Bool.false_or, Bool.and_eq_true, beq_iff_eq] at h
    exact advance_of_rest h.1 h.2

/-- Rows of a block without an attack or a rest leave all as it is. -/
theorem behind_of_steady {rows : List Row} {block : Int} (hblock : s.block = some block)
    (h : ∀ r ∈ rows, r.block = block ∧ r.cuts = false) : behind continues tones s rows = s := by
  induction rows with
  | nil => rfl
  | cons r rows ih =>
      obtain ⟨⟨hr, hcuts⟩, hrows⟩ := List.forall_mem_cons.1 h
      have hsteady : advance continues tones s r = s := by
        unfold advance
        split
        · next hsource =>
          simp only [Row.cuts, hsource, beq_self_eq_true, Bool.true_and, Bool.or_eq_false_iff,
            beq_eq_false_iff_ne] at hcuts
          rw [enter_of_block continues (hr ▸ hblock), step, if_neg (by simp [hcuts.1]),
            if_neg hcuts.2]
          split
          · split <;> rfl
          · rfl
        · rfl
      rw [behind_cons, hsteady, ih hrows]

end Underlay

-- ========================================================== pitches

/-- The pitches of a block, in order. -/
def Table.pitches (t : Table) (block : Int) : List Row :=
  t.filter fun r => r.isPitch && r.hasPitch && decide (r.block = block)

/-- A row that sings what another one names. -/
def Row.singing (r p : Row) : Row :=
  { r with
    letter := p.letter
    accidental := some (p.accidental.getD .plain)
    octave := p.octave }

/-- A row that sings what another one names, if there is one. -/
def Row.given (r : Row) (p? : Option Row) : Row :=
  (p?.map r.singing).getD r

/-- A pitch offers a tone, and to be given the tone is to sing the pitch. -/
theorem offeredTone?_of_pitch {p : Row} (h : (p.isPitch && p.hasPitch) = true) :
    ∃ tone, p.offeredTone? = some tone ∧ ∀ r : Row, r.withTone tone = r.singing p := by
  obtain ⟨hpitch, hsings⟩ := Bool.and_eq_true_iff.1 h
  obtain ⟨hletter, hoctave⟩ := Bool.and_eq_true_iff.1 hsings
  obtain ⟨letter, hl⟩ := Option.isSome_iff_exists.1 hletter
  obtain ⟨octave, ho⟩ := Option.isSome_iff_exists.1 hoctave
  refine ⟨⟨letter, p.accidental.getD .plain, octave⟩, ?_, fun r => ?_⟩
  · unfold Row.offeredTone?
    rw [if_pos (isPitch_iff.1 hpitch), hl, ho]
  · rw [Row.withTone, Row.singing, hl, ho]

theorem offeredTone?_of_not_pitch {p : Row} (h : (p.isPitch && p.hasPitch) = false) :
    p.offeredTone? = none := by
  unfold Row.offeredTone?
  split
  · next hpitch =>
    rw [isPitch_iff.2 hpitch, Bool.true_and, Row.hasPitch] at h
    split
    · next hl ho =>
      rw [hl, ho] at h
      cases h
    · rfl
  · rfl

/-- The tones of a block are those of its pitches. -/
theorem Table.map_offeredTone?_pitches (t : Table) (block : Int) :
    (t.pitches block).map Row.offeredTone? = (t.tones block).map some := by
  unfold Table.pitches Table.tones
  induction t with
  | nil => rfl
  | cons r t ih =>
      rw [List.filter_cons, List.filterMap_cons]
      by_cases hblock : r.block = block
      · rw [if_pos hblock, decide_eq_true hblock, Bool.and_true]
        cases hpitch : r.isPitch && r.hasPitch with
        | true =>
            obtain ⟨tone, htone, -⟩ := offeredTone?_of_pitch hpitch
            rw [if_pos rfl, htone, List.map_cons, List.map_cons, htone, ih]
        | false =>
            rw [if_neg Bool.false_ne_true, offeredTone?_of_not_pitch hpitch, ih]
      · rw [if_neg hblock, decide_eq_false hblock, Bool.and_false, if_neg Bool.false_ne_true, ih]

theorem Table.length_pitches (t : Table) (block : Int) :
    (t.pitches block).length = (t.tones block).length := by
  have hlength := congrArg List.length (t.map_offeredTone?_pitches block)
  rwa [List.length_map, List.length_map] at hlength

/-- To be given the k-th tone of a block is to sing its k-th pitch. -/
theorem Table.given_pitch (t : Table) (block : Int) (k : Nat) (r : Row) :
    (((t.tones block)[k]?).map r.withTone).getD r = r.given (t.pitches block)[k]?
      ∧ ((t.tones block)[k]?).isSome = ((t.pitches block)[k]?).isSome := by
  have hget : ((t.pitches block)[k]?).map Row.offeredTone? = ((t.tones block)[k]?).map some := by
    rw [← List.getElem?_map, ← List.getElem?_map, t.map_offeredTone?_pitches block]
  cases hp : (t.pitches block)[k]? with
  | none =>
      rw [hp, Option.map_none, eq_comm, Option.map_eq_none_iff] at hget
      rw [hget]
      exact ⟨rfl, rfl⟩
  | some p =>
      obtain ⟨-, hpitch⟩ := List.mem_filter.1 (List.mem_of_getElem? hp)
      obtain ⟨tone, htone, hsinging⟩ := offeredTone?_of_pitch (Bool.and_eq_true_iff.1 hpitch).1
      rw [hp, Option.map_some, htone, eq_comm, Option.map_eq_some_iff] at hget
      obtain ⟨tone', htone', heq⟩ := hget
      obtain rfl := Option.some.inj heq
      rw [htone']
      exact ⟨hsinging r, rfl⟩

-- ============================================================= fates

namespace Underlay

variable (continues : Int → Bool) (tones : Int → List Tone)

theorem block_outcome (s : State) (r : Row) : (outcome continues tones s r).1.block = r.block := by
  unfold outcome step
  split
  · dsimp only
    repeat' split
    all_goals rfl
  · rfl

/-- An attack is sung as long as its block has a tone for it. -/
theorem sung_outcome_iff (s : State) (r : Row) :
    (outcome continues tones s r).2 = .sung
      ↔ r.isAttack = true ∧ s.attacks.count r.block < (tones r.block).length := by
  by_cases hattack : r.isAttack = true
  · rw [outcome_of_attack hattack rfl]
    simp only [hattack, true_and]
    split
    · next hsome =>
      obtain ⟨tone, htone⟩ := Option.isSome_iff_exists.1 hsome
      exact iff_of_true rfl (List.getElem?_eq_some_iff.1 htone).1
    · next hnone =>
      rw [Option.not_isSome_iff_eq_none, List.getElem?_eq_none_iff] at hnone
      refine iff_of_false (fun h => ?_) (Nat.not_lt.2 hnone)
      cases h
  · have hattack : r.isAttack = false := Bool.eq_false_iff.2 hattack
    rw [hattack]
    refine iff_of_false (fun hsung => ?_) (fun h => Bool.false_ne_true h.1)
    by_cases hhold : r.isHold = true
    · rw [outcome_of_hold hhold rfl] at hsung
      dsimp only at hsung
      split at hsung <;> cases hsung
    · rw [outcome_of_other hattack (Bool.eq_false_iff.2 hhold)] at hsung
      cases hsung

/-- Attacks are sung or silent, holds are held or not, and nothing else is either. -/
theorem fate_outcome (s : State) (r : Row) :
    [Fate.sung, .silent].contains (outcome continues tones s r).2 = r.isAttack
      ∧ [Fate.held, .unheld].contains (outcome continues tones s r).2 = r.isHold := by
  by_cases hattack : r.isAttack = true
  · rw [outcome_of_attack hattack rfl, hattack, isHold_of_isAttack hattack]
    dsimp only
    split <;> exact ⟨rfl, rfl⟩
  · have hattack : r.isAttack = false := Bool.eq_false_iff.2 hattack
    rw [hattack]
    by_cases hhold : r.isHold = true
    · rw [outcome_of_hold hhold rfl, hhold]
      dsimp only
      split <;> exact ⟨rfl, rfl⟩
    · have hhold : r.isHold = false := Bool.eq_false_iff.2 hhold
      rw [outcome_of_other hattack hhold, hhold]
      exact ⟨rfl, rfl⟩

/-- How many rows meet some fates, when these are the fates of one sort of rows. -/
theorem length_filter_run {fates : List Fate} {sort : Row → Bool}
    (h : ∀ s r, fates.contains (outcome continues tones s r).2 = sort r) (s : State)
    (rows : List Row) :
    ((run continues tones s rows).filter fun p => fates.contains p.2).length = rows.countP sort := by
  induction rows generalizing s with
  | nil => rfl
  | cons r rows ih =>
      rw [run_cons, List.filter_cons, h, List.countP_cons]
      split
      · rw [List.length_cons, ih]
      · rw [ih, Nat.add_zero]

/-- How many attacks of a block are sung, from a state on. Together with those before they are as
many as the attacks and the tones allow. -/
theorem countP_sung_run (s : State) (rows : List Row) (block : Int) :
    (run continues tones s rows).countP (fun p => decide (p.2 = .sung) && decide (p.1.block = block))
        + min (s.attacks.count block) (tones block).length
      = min (s.attacks.count block + Table.countIn rows Row.isAttack block)
          (tones block).length := by
  induction rows generalizing s with
  | nil => exact Nat.zero_add _
  | cons r rows ih =>
      have hmore := ih (advance continues tones s r)
      rw [attacks_advance] at hmore
      rw [run_cons, List.countP_cons, Table.countIn_cons, block_outcome]
      simp only [Bool.and_eq_true, decide_eq_true_eq, sung_outcome_iff]
      by_cases hown : r.isAttack = true ∧ r.block = block
      · obtain ⟨hattack, rfl⟩ := hown
        rw [if_pos hattack, List.count_cons_self] at hmore
        simp only [hattack, true_and, and_true, if_true]
        split <;> omega
      · rw [if_neg hown, if_neg fun h => hown ⟨h.1.1, h.2⟩]
        split at hmore
        · next hattack =>
          rw [List.count_cons_of_ne fun h => hown ⟨hattack, h⟩] at hmore
          omega
        · omega

end Underlay

/-- Whether rows are sung or held, and whether they attack or hold, are two ways to share out the
same rows. -/
theorem length_filter_fates (rows : List (Row × Fate)) :
    (rows.filter fun p => [Fate.sung, .held].contains p.2).length
        + (rows.filter fun p => [Fate.silent, .unheld].contains p.2).length
      = (rows.filter fun p => [Fate.sung, .silent].contains p.2).length
        + (rows.filter fun p => [Fate.held, .unheld].contains p.2).length := by
  induction rows with
  | nil => rfl
  | cons p rows ih =>
      obtain ⟨r, fate⟩ := p
      simp only [← List.countP_eq_length_filter, List.countP_cons] at ih ⊢
      cases fate <;> simp +decide only [if_true, if_false] <;> omega

-- ============================================================== laws

/-- The pitch that an attack behind some rows sings: the k-th attack of a block sings its k-th
pitch. -/
def Table.pitchFor? (t : Table) (before : List Row) (r : Row) : Option Row :=
  if r.isAttack then (t.pitches r.block)[Table.countIn before Row.isAttack r.block]? else none

/-- The attacks for which no pitch is left, in order. -/
def Table.leftOver (t : Table) : List Row :=
  (t.zipIdx.filter fun p => p.1.isAttack && (t.pitchFor? (t.take p.2) p.1).isNone).map (·.1)

/-- How the attacks and holds of a table come by their pitches. -/
structure Table.PitchesConserved (t : Table) : Prop where
  /-- The k-th attack of a block gets the k-th pitch of the block, or stays as it is. -/
  attack : ∀ (before : List Row) (r : Row) (after : List Row), t = before ++ r :: after →
    r.isAttack = true → t.underlaid[before.length]? = some (r.given (t.pitchFor? before r),
      if (t.pitchFor? before r).isSome then .sung else .silent)
  /-- A hold gets the pitch of the nearest attack or rest before it in its block, if that is an
  attack that got one; or else it stays as it is. -/
  hold : ∀ (before : List Row) (q : Row) (between : List Row) (r : Row) (after : List Row),
    t = before ++ q :: (between ++ r :: after) →
    r.isHold = true → q.block = r.block → q.cuts = true →
    (∀ m ∈ between, m.block = r.block → m.cuts = false) →
    t.underlaid[before.length + (between.length + 1)]? = some (r.given (t.pitchFor? before q),
      if (t.pitchFor? before q).isSome then .held else .unheld)
  /-- All other rows stay as they are. -/
  other : ∀ (before : List Row) (r : Row) (after : List Row), t = before ++ r :: after →
    r.isAttack = false → r.isHold = false → t.underlaid[before.length]? = some (r, .other)
  /-- Every attack and every hold is mapped or not. -/
  report : ∃ mapped unmapped,
    Stage.underlayFigures t.underlaid
        = [("attacks", .count (t.countP Row.isAttack)), ("ties", .count (t.countP Row.isHold)),
          ("mapped", .count mapped), ("unmapped", .count unmapped)]
      ∧ mapped + unmapped = t.countP Row.isAttack + t.countP Row.isHold
  /-- A block uses as many pitches as it has attacks and pitches. -/
  consumed : ∀ block,
    t.underlaid.countP (fun p => decide (p.2 = .sung) && decide (p.1.block = block))
      = min (t.countIn Row.isAttack block) (t.pitches block).length
  /-- There is one warning for each attack without a pitch, and one for each block with more
  pitches than attacks. -/
  warnings : ∃ unused : List Warning,
    t.underlayWarnings
        = t.leftOver.map (fun r => .noPitchLeft r.block r.measure r.raw) ++ unused
      ∧ unused.Nodup
      ∧ ∀ w, w ∈ unused ↔ ∃ block, t.countIn Row.isAttack block < (t.pitches block).length
          ∧ w = .unusedPitches block ((t.pitches block).length - t.countIn Row.isAttack block)

namespace Table

variable {t : Table}

/-- What becomes of the row behind some others. -/
theorem getElem?_underlaid {before after : List Row} {r : Row} (ht : t = before ++ r :: after) :
    t.underlaid[before.length]? = some (Underlay.outcome t.opensWithHold t.tones
      (Underlay.behind t.opensWithHold t.tones {} before) r) := by
  have hget := Underlay.getElem?_run t.opensWithHold t.tones {} before after r
  rwa [← ht] at hget

/-- The tone for an attack behind some rows is that of its pitch. -/
theorem given_pitchFor? (before : List Row) {q : Row} (hq : q.isAttack = true) (r : Row) :
    (((t.tones q.block)[(Underlay.behind t.opensWithHold t.tones {} before).attacks.count
        q.block]?).map r.withTone).getD r = r.given (t.pitchFor? before q)
      ∧ ((t.tones q.block)[(Underlay.behind t.opensWithHold t.tones {} before).attacks.count
        q.block]?).isSome = (t.pitchFor? before q).isSome := by
  rw [Underlay.count_attacks_behind, pitchFor?, if_pos hq, List.count_nil, Nat.zero_add]
  exact t.given_pitch q.block _ r

theorem underlaid_attack {before after : List Row} {r : Row} (ht : t = before ++ r :: after)
    (hr : r.isAttack = true) :
    t.underlaid[before.length]? = some (r.given (t.pitchFor? before r),
      if (t.pitchFor? before r).isSome then .sung else .silent) := by
  obtain ⟨hgiven, hsome⟩ := t.given_pitchFor? before hr r
  rw [getElem?_underlaid ht, Underlay.outcome_of_attack hr rfl, hgiven, hsome]

theorem underlaid_hold (h : Gathered (fun r : Row => some r.block) t)
    {before between after : List Row} {q r : Row} (ht : t = before ++ q :: (between ++ r :: after))
    (hr : r.isHold = true) (hblock : q.block = r.block) (hq : q.cuts = true)
    (hbetween : ∀ m ∈ between, m.block = r.block → m.cuts = false) :
    t.underlaid[before.length + (between.length + 1)]? = some (r.given (t.pitchFor? before q),
      if (t.pitchFor? before q).isSome then .held else .unheld) := by
  -- what stands between two rows of a block belongs to it
  have hown : ∀ m ∈ between, m.block = q.block ∧ m.cuts = false := by
    intro m hm
    have hsub : [q, m, r].Sublist t := by
      rw [ht]
      refine List.Sublist.trans ?_ (List.sublist_append_right before _)
      exact (((List.singleton_sublist.2 hm).append (List.singleton_sublist.2
        List.mem_cons_self)).cons_cons q)
    have hm' := Option.some.inj (h q m r q.block hsub rfl (congrArg some hblock.symm))
    exact ⟨hm', hbetween m hm (hm'.trans hblock)⟩
  have ht' : t = (before ++ q :: between) ++ r :: after := by
    rw [ht, List.append_assoc, List.cons_append]
  have hplace : (before ++ q :: between).length = before.length + (between.length + 1) := by
    rw [List.length_append, List.length_cons]
  obtain ⟨hsounding, hstate⟩ := Underlay.advance_of_cuts t.opensWithHold t.tones
    (Underlay.behind t.opensWithHold t.tones {} before) hq
  have hbehind : Underlay.behind t.opensWithHold t.tones {} (before ++ q :: between)
      = Underlay.advance t.opensWithHold t.tones
        (Underlay.behind t.opensWithHold t.tones {} before) q := by
    rw [Underlay.behind_append, Underlay.behind_cons, Underlay.behind_of_steady hstate hown]
  have henter := Underlay.enter_of_block t.opensWithHold (hblock ▸ hstate)
  rw [← hplace, getElem?_underlaid ht', hbehind,
    Underlay.outcome_of_hold hr ((congrArg _ henter).trans hsounding)]
  by_cases hattack : q.isAttack = true
  · obtain ⟨hgiven, hsome⟩ := t.given_pitchFor? before hattack r
    rw [if_pos hattack, hgiven, hsome]
  · rw [if_neg hattack, pitchFor?, if_neg hattack]
    rfl

theorem underlaid_other {before after : List Row} {r : Row} (ht : t = before ++ r :: after)
    (hattack : r.isAttack = false) (hhold : r.isHold = false) :
    t.underlaid[before.length]? = some (r, .other) := by
  rw [getElem?_underlaid ht, Underlay.outcome_of_other hattack hhold]

theorem underlayFigures_underlaid (t : Table) : ∃ mapped unmapped,
    Stage.underlayFigures t.underlaid
        = [("attacks", .count (t.countP Row.isAttack)), ("ties", .count (t.countP Row.isHold)),
          ("mapped", .count mapped), ("unmapped", .count unmapped)]
      ∧ mapped + unmapped = t.countP Row.isAttack + t.countP Row.isHold := by
  have hattacks := Underlay.length_filter_run t.opensWithHold t.tones
    (fun s r => (Underlay.fate_outcome t.opensWithHold t.tones s r).1) {} t
  have hholds := Underlay.length_filter_run t.opensWithHold t.tones
    (fun s r => (Underlay.fate_outcome t.opensWithHold t.tones s r).2) {} t
  have htotal := length_filter_fates t.underlaid
  unfold Table.underlaid at htotal
  rw [hattacks, hholds] at htotal
  refine ⟨_, _, ?_, htotal⟩
  rw [← hattacks, ← hholds]
  rfl

theorem countP_sung_underlaid (t : Table) (block : Int) :
    t.underlaid.countP (fun p => decide (p.2 = .sung) && decide (p.1.block = block))
      = min (t.countIn Row.isAttack block) (t.pitches block).length := by
  have hsung := Underlay.countP_sung_run t.opensWithHold t.tones {} t block
  rw [List.count_nil, Nat.zero_min, Nat.add_zero, Nat.zero_add] at hsung
  rw [t.length_pitches block]
  exact hsung

/-- Silence comes to the attacks for which no pitch is left. -/
theorem silent_outcome_iff (before : List Row) (r : Row) :
    (Underlay.outcome t.opensWithHold t.tones (Underlay.behind t.opensWithHold t.tones {} before)
        r).2 = .silent ↔ r.isAttack = true ∧ t.pitchFor? before r = none := by
  by_cases hattack : r.isAttack = true
  · obtain ⟨-, hsome⟩ := t.given_pitchFor? before hattack r
    rw [Underlay.outcome_of_attack hattack rfl, hsome]
    cases t.pitchFor? before r <;> simp [hattack]
  · refine iff_of_false (fun hsilent => ?_) fun h => hattack h.1
    have hfate := (Underlay.fate_outcome t.opensWithHold t.tones
      (Underlay.behind t.opensWithHold t.tones {} before) r).1
    rw [hsilent] at hfate
    exact hattack hfate.symm

/-- The warnings about attacks, from a place on. -/
theorem silent_run {before rest : List Row} (ht : t = before ++ rest) :
    (Underlay.run t.opensWithHold t.tones (Underlay.behind t.opensWithHold t.tones {} before)
        rest).filterMap (fun p =>
          if p.2 = .silent then some (Warning.noPitchLeft p.1.block p.1.measure p.1.raw) else none)
      = (((rest.zipIdx before.length).filter fun p =>
          p.1.isAttack && (t.pitchFor? (t.take p.2) p.1).isNone).map (·.1)).map
        fun r => .noPitchLeft r.block r.measure r.raw := by
  induction rest generalizing before with
  | nil => rfl
  | cons r rest ih =>
      have hmore := @ih (before ++ [r]) (by rw [ht, List.append_assoc, List.singleton_append])
      have htake : t.take before.length = before := by rw [ht, List.take_left]
      rw [Underlay.behind_append, List.length_append, List.length_singleton] at hmore
      rw [Underlay.run_cons, List.zipIdx_cons, List.filterMap_cons, List.filter_cons]
      dsimp only
      rw [htake]
      by_cases hsilent : r.isAttack = true ∧ t.pitchFor? before r = none
      · rw [if_pos ((t.silent_outcome_iff before r).2 hsilent), if_pos (by simp [hsilent])]
        rw [List.map_cons, List.map_cons, ← hmore, Underlay.outcome_of_attack hsilent.1 rfl,
          (t.given_pitchFor? before hsilent.1 r).1, hsilent.2]
        rfl
      · rw [if_neg fun h => hsilent ((t.silent_outcome_iff before r).1 h),
          if_neg (by simpa using hsilent), ← hmore]
        rfl

theorem underlayWarnings_underlaid (t : Table) : ∃ unused : List Warning,
    t.underlayWarnings
        = t.leftOver.map (fun r => .noPitchLeft r.block r.measure r.raw) ++ unused
      ∧ unused.Nodup
      ∧ ∀ w, w ∈ unused ↔ ∃ block, t.countIn Row.isAttack block < (t.pitches block).length
          ∧ w = .unusedPitches block ((t.pitches block).length - t.countIn Row.isAttack block) := by
  have hunused : ∀ block, t.unusedTones block
      = (t.pitches block).length - t.countIn Row.isAttack block := by
    intro block
    rw [Table.unusedTones, t.length_pitches block, Table.countIn, List.countP_eq_length_filter]
    rfl
  refine ⟨_, congrArg (· ++ _) (silent_run (List.nil_append t).symm),
    List.Pairwise.filterMap _ ?_ (nodup_distinct _), fun w => ?_⟩
  · -- a warning names its block
    rintro block block' hne w hw w' hw' rfl
    split at hw
    · cases hw
    split at hw'
    · cases hw'
    · cases hw.trans hw'.symm
      exact hne rfl
  · rw [List.mem_filterMap]
    constructor
    · rintro ⟨block, -, hw⟩
      split at hw
      · cases hw
      next hne =>
      rw [hunused] at hne hw
      exact ⟨block, by omega, (Option.some.inj hw).symm⟩
    · rintro ⟨block, hlt, rfl⟩
      -- a block with pitches left offers some
      obtain ⟨p, hp⟩ := List.exists_mem_of_length_pos (Nat.zero_lt_of_lt hlt)
      obtain ⟨hmem, hpitch⟩ := List.mem_filter.1 hp
      rw [Bool.and_eq_true, decide_eq_true_eq] at hpitch
      obtain ⟨tone, htone, -⟩ := offeredTone?_of_pitch hpitch.1
      refine ⟨block, mem_distinct.2 (List.mem_map.2 ⟨p, List.mem_filter.2 ⟨hmem, ?_⟩, hpitch.2⟩), ?_⟩
      · rw [htone]
        rfl
      · rw [hunused, if_neg (by omega)]

/-- Pitches are conserved. In a table whose blocks stand together, the k-th attack of a block gets
the k-th pitch of the block; holds go on with the nearest attack or rest of their block; and the
figures and warnings account for every attack, hold and pitch. -/
theorem pitchesConserved_of_gathered (h : Gathered (fun r : Row => some r.block) t) :
    t.PitchesConserved where
  attack _ _ _ ht hr := underlaid_attack ht hr
  hold _ _ _ _ _ ht hr hblock hq hbetween := underlaid_hold h ht hr hblock hq hbetween
  other _ _ _ ht hattack hhold := underlaid_other ht hattack hhold
  report := t.underlayFigures_underlaid
  consumed := t.countP_sung_underlaid
  warnings := t.underlayWarnings_underlaid

/-- A row of a lyric line. -/
def lyricRow (block : Int) (kind : Kind) : Row :=
  { source := .lyric, block := block, kind := kind, measure := some 1 }

/-- A pitch with its octave. -/
def pitchRow (block : Int) (letter : String) : Row :=
  { source := .pitch, block := block, kind := .pitch, letter := some letter, octave := some 4 }

/-- A block with a pitch too few, and before it one with a pitch too many. -/
def unevenTable : Table :=
  [lyricRow 2 .syllable, lyricRow 2 .barline, lyricRow 2 .tie, pitchRow 2 "c", pitchRow 2 "d",
   lyricRow 1 .tie, lyricRow 1 .attack, lyricRow 1 .rest, lyricRow 1 .hold, pitchRow 1 "e",
   lyricRow 1 .syllable, lyricRow 1 .tie]

theorem pitchesConserved_of_gathered_unevenTable :
    Gathered (fun r : Row => some r.block) unevenTable ∧ unevenTable.PitchesConserved := by
  have hgathered : Gathered (fun r : Row => some r.block) unevenTable :=
    gathered_of_pairwise (fun x y (hxy : y ≤ x) hyx => Int.le_antisymm hyx hxy) (by decide)
  exact ⟨hgathered, pitchesConserved_of_gathered hgathered⟩

end Table

end LyricScore
