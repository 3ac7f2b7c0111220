/-
What a hold goes on with. Inside a block a hold goes on with the row before it, so a rest ends
what sounds. A hold that opens its block goes on with the last attack instead, whatever came
behind that attack. So a pitch outlives a rest in one case only: a block ends with a rest, or with
holds behind one, and the next block opens with a hold.

# The invariant

`Recalls` says what the underlay has in mind in terms of the rows behind it: the tone of the last
attack, and what a hold in the current block would go on with. One lemma carries it into a block,
one over a row, and the run is an induction on the rows.
-/
import LyricScore.Proofs.Pipeline.Stages
import LyricScore.Proofs.Table.Tones

namespace LyricScore

-- ============================================================= tones

/-- The tone that a row sings. -/
def Row.tone? (r : Row) : Option Tone :=
  match r.letter, r.accidental, r.octave with
  | some letter, some accidental, some octave => some ⟨letter, accidental, octave⟩
  | _, _, _ => none

/-- Two rows with the same letter, accidental and octave. -/
def Row.SameTone (q r : Row) : Prop :=
  q.letter = r.letter ∧ q.accidental = r.accidental ∧ q.octave = r.octave

theorem Row.tone?_of_untuned {r : Row} (h : r.letter = none) :
    r.tone? = none ∧ r.hasPitch = r.tone?.isSome := by
  simp [Row.tone?, Row.hasPitch, h]

theorem Row.sameTone_of_tone? {q r : Row} {tone : Tone} (hq : q.tone? = some tone)
    (hr : r.tone? = some tone) : q.SameTone r := by
  have hfields : ∀ {r : Row}, r.tone? = some tone → r.letter = some tone.letter
      ∧ r.accidental = some tone.accidental ∧ r.octave = some tone.octave := by
    intro r hr
    unfold Row.tone? at hr
    split at hr
    · next hl ha ho =>
      obtain rfl := Option.some.inj hr
      exact ⟨hl, ha, ho⟩
    · cases hr
  obtain ⟨hl, ha, ho⟩ := hfields hq
  obtain ⟨hl', ha', ho'⟩ := hfields hr
  exact ⟨hl.trans hl'.symm, ha.trans ha'.symm, ho.trans ho'.symm⟩

-- ========================================================== the past

/-- The last row that takes time. -/
def Table.lastRhythm? (seen : Table) : Option Row :=
  seen.reverse.find? Row.isRhythm

/-- The last attack. -/
def Table.lastAttack? (seen : Table) : Option Row :=
  seen.reverse.find? Row.isAttack

/-- What a hold of a block goes on with behind some rows: the row before it in its block, or else
the last attack. -/
def Table.heldTone? (seen : Table) (block : Int) : Option Tone :=
  seen.lastRhythm?.bind fun q =>
    if q.block = block then q.tone? else seen.lastAttack?.bind Row.tone?

/-- A hold that opens its block goes on with the last attack. -/
theorem Table.heldTone?_of_ne {seen : Table} {block : Int}
    (h : ∀ q ∈ seen.lastRhythm?, q.block ≠ block) :
    seen.heldTone? block = seen.lastAttack?.bind Row.tone? := by
  unfold Table.heldTone?
  cases hlast : seen.lastRhythm? with
  | some q => exact if_neg (h q hlast)
  | none =>
      -- without a row that takes time there is no attack either
      have hnone : seen.lastAttack? = none := by
        apply List.find?_eq_none.2
        intro r hr hattack
        exact List.find?_eq_none.1 hlast r hr (isRhythm_of_isAttack hattack)
      rw [hnone]
      rfl

/-- Behind a row that takes time, a hold of its block goes on with it. -/
theorem Table.heldTone?_concat (seen : Table) {r : Row} (h : r.isRhythm = true) :
    (seen ++ [r]).heldTone? r.block = r.tone? := by
  unfold Table.heldTone? Table.lastRhythm?
  rw [find?_reverse_concat, if_pos h]
  exact if_pos rfl

/-- A row that takes no time changes nothing. -/
theorem Table.last_concat_of_quiet (seen : Table) {r : Row} (h : r.isRhythm = false) :
    (seen ++ [r]).lastRhythm? = seen.lastRhythm? ∧ (seen ++ [r]).lastAttack? = seen.lastAttack? := by
  have hattack : r.isAttack = false := Bool.eq_false_iff.2 fun hattack => by
    rw [isRhythm_of_isAttack hattack] at h
    cases h
  unfold Table.lastRhythm? Table.lastAttack?
  rw [find?_reverse_concat, find?_reverse_concat, h, hattack]
  exact ⟨rfl, rfl⟩

/-- Behind a row that takes time and rows that take none, the last attack is that row or comes before
it. -/
theorem Table.lastAttack?_append {before after : Table} {q : Row}
    (h : ∀ r ∈ after, r.isRhythm = false) :
    Table.lastAttack? (before ++ q :: after) = if q.isAttack then some q else before.lastAttack? := by
  have hnone : after.reverse.find? Row.isAttack = none := by
    apply List.find?_eq_none.2
    intro r hr hattack
    have hquiet := h r (List.mem_reverse.1 hr)
    rw [isRhythm_of_isAttack hattack] at hquiet
    cases hquiet
  unfold Table.lastAttack?
  rw [List.reverse_append, List.reverse_cons, List.append_assoc, List.find?_append, hnone,
    Option.none_or, List.singleton_append]
  split
  · next hq => exact List.find?_cons_of_pos hq
  · next hq => exact List.find?_cons_of_neg hq

theorem Table.lastRhythm?_eq_some {seen : Table} {q : Row} (h : seen.lastRhythm? = some q) :
    q.isRhythm = true ∧ ∃ before after, seen = before ++ q :: after
      ∧ ∀ r ∈ after, r.isRhythm = false := by
  obtain ⟨hq, as, bs, hsplit, has⟩ := List.find?_eq_some_iff_append.1 h
  refine ⟨hq, bs.reverse, as.reverse, ?_, fun r hr => ?_⟩
  · have hreverse := congrArg List.reverse hsplit
    simpa using hreverse
  · simpa using has r (List.mem_reverse.1 hr)

-- ========================================================= invariant

/-- A hold behind some rows, with the tone that it should go on with. That is always the tone of
the last attack. -/
structure Row.HeldBehind (seen : Table) (r : Row) : Prop where
  tone : r.tone? = seen.heldTone? r.block
  attack : ∀ tone ∈ r.tone?, seen.lastAttack?.bind Row.tone? = some tone

/-- What the underlay has in mind, in terms of the rows behind it. In a block that has not come to
a row that takes time, it matters only if the block opens with a hold. -/
structure Underlay.State.Recalls (continues : Int → Bool) (s : Underlay.State) (seen : Table) :
    Prop where
  attack : s.lastAttack = seen.lastAttack?.bind Row.tone?
  sounding : ∀ block ∈ s.block,
    (continues block = true ∨ ∃ q ∈ seen, q.isRhythm = true ∧ q.block = block) →
    s.sounding = seen.heldTone? block
  attacked : ∀ tone ∈ s.sounding, s.lastAttack = some tone
  ordered : ∀ q ∈ seen, q.source = .lyric → ∃ block ∈ s.block, q.block ≤ block

namespace Underlay.State.Recalls

variable {continues : Int → Bool} {s : Underlay.State} {seen : Table} {r : Row}

theorem enter (h : s.Recalls continues seen) (hr : ∀ block ∈ s.block, block ≤ r.block) :
    (s.enter continues r).Recalls continues seen ∧ (s.enter continues r).block = some r.block := by
  unfold Underlay.State.enter
  by_cases hsame : s.block = some r.block
  · rw [if_pos hsame]
    exact ⟨h, hsame⟩
  · rw [if_neg hsame]
    have hearlier : ∀ q ∈ seen, q.source = .lyric → q.block < r.block := by
      intro q hq hsource
      obtain ⟨block, hblock, hle⟩ := h.ordered q hq hsource
      have hne : block ≠ r.block := fun heq => hsame (heq ▸ hblock)
      have := hr block hblock
      omega
    have hnew : ∀ q ∈ seen, q.isRhythm = true → q.block ≠ r.block := by
      intro q hq hrhythm
      simp only [Row.isRhythm, Bool.and_eq_true, beq_iff_eq] at hrhythm
      have := hearlier q hq hrhythm.1
      omega
    refine ⟨⟨h.attack, ?_, ?_, fun q hq hsource => ⟨r.block, rfl, ?_⟩⟩, rfl⟩
    · intro block hblock hcase
      obtain rfl := Option.some.inj hblock
      rcases hcase with hopens | ⟨q, hq, hrhythm, hblock⟩
      · show (if continues r.block = true then s.lastAttack else none) = _
        rw [if_pos hopens, h.attack, Table.heldTone?_of_ne]
        intro q hq
        exact hnew q (List.mem_reverse.1 (List.mem_of_find?_eq_some hq)) (List.find?_some hq)
      · exact absurd hblock (hnew q hq hrhythm)
    · intro tone htone
      dsimp only at htone
      split at htone
      · exact htone
      · cases htone
    · exact Int.le_of_lt (hearlier q hq hsource)

/-- Behind a row that takes time, what sounds is its tone. -/
theorem concat {s' : Underlay.State} {r' : Row} (h : s.Recalls continues seen)
    (hblock : s.block = some r'.block) (hblock' : s'.block = s.block) (hrhythm : r'.isRhythm = true)
    (hattack : s'.lastAttack = if r'.isAttack then r'.tone? else s.lastAttack)
    (hsounding : s'.sounding = r'.tone?) (hattacked : ∀ tone ∈ s'.sounding, s'.lastAttack = some tone) :
    s'.Recalls continues (seen ++ [r']) := by
  refine ⟨?_, ?_, hattacked, ?_⟩
  · rw [hattack, h.attack]
    unfold Table.lastAttack?
    rw [find?_reverse_concat]
    split <;> rfl
  · intro block hb _
    rw [hblock', hblock] at hb
    obtain rfl := Option.some.inj hb
    rw [hsounding, Table.heldTone?_concat seen hrhythm]
  · intro q hq hlyric
    rw [hblock']
    rcases List.mem_append.1 hq with hq | hq
    · exact h.ordered q hq hlyric
    · obtain rfl := List.mem_singleton.1 hq
      exact ⟨q.block, hblock, Int.le_refl _⟩

/-- A row that takes no time leaves all as it is. -/
theorem concat_quiet (h : s.Recalls continues seen)
    (hblock : r.source = .lyric → s.block = some r.block) (hrhythm : r.isRhythm = false) :
    s.Recalls continues (seen ++ [r]) := by
  obtain ⟨hlast, hattack⟩ := Table.last_concat_of_quiet seen hrhythm
  refine ⟨?_, ?_, h.attacked, ?_⟩
  · rw [hattack]
    exact h.attack
  · intro block hb hcase
    unfold Table.heldTone?
    rw [hlast, hattack]
    apply h.sounding block hb
    rcases hcase with hopens | ⟨q, hq, hq', hblock⟩
    · exact Or.inl hopens
    · rcases List.mem_append.1 hq with hq | hq
      · exact Or.inr ⟨q, hq, hq', hblock⟩
      · rw [List.mem_singleton.1 hq, hrhythm] at hq'
        cases hq'
  · intro q hq hlyric
    rcases List.mem_append.1 hq with hq | hq
    · exact h.ordered q hq hlyric
    · obtain rfl := List.mem_singleton.1 hq
      exact ⟨q.block, hblock hlyric, Int.le_refl _⟩

/-- One row: what the underlay has in mind behind it, and what it did to a hold. -/
theorem step (tones : Int → List Tone) (h : s.Recalls continues seen) (hblock : s.block = some r.block)
    (hsource : r.source = .lyric) (hletter : r.letter = none)
    (hopens : r.isHold = true → (∀ q ∈ seen, q.isRhythm = true → q.block ≠ r.block) →
      continues r.block = true) :
    (Underlay.step tones s r).1.Recalls continues (seen ++ [(Underlay.step tones s r).2.1])
      ∧ (Underlay.step tones s r).1.block = some r.block
      ∧ (r.isHold = true → (Underlay.step tones s r).2.1.HeldBehind seen)
      ∧ (Underlay.step tones s r).2.1.hasPitch = (Underlay.step tones s r).2.1.tone?.isSome := by
  obtain ⟨huntuned, hpitchless⟩ := Row.tone?_of_untuned hletter
  -- a hold goes on with what sounds, and what sounds is what it should go on with
  have hsounds : r.isHold = true → s.sounding = seen.heldTone? r.block := by
    intro hhold
    apply h.sounding r.block hblock
    by_cases hfirst : ∃ q ∈ seen, q.isRhythm = true ∧ q.block = r.block
    · exact Or.inr hfirst
    · left
      apply hopens hhold
      intro q hq hrhythm heq
      exact hfirst ⟨q, hq, hrhythm, heq⟩
  have hsilent : ∀ {last : Option Tone}, ∀ tone, (none : Option Tone) = some tone → last = some tone := by
    intro last tone hsung
    cases hsung
  have hstep := Underlay.step_stepped tones s r
  generalize Underlay.step tones s r = out at hstep ⊢
  cases hstep with
  | @sung tone hattack =>
      have hattack' : (r.withTone tone).isAttack = true := hattack
      refine ⟨h.concat hblock rfl (isRhythm_of_isAttack hattack') ?_ rfl fun _ htone => htone, hblock,
        fun hyes => ?_, rfl⟩
      · rw [if_pos hattack']
        rfl
      · rw [isHold_of_isAttack hattack] at hyes
        cases hyes
  | silent hattack =>
      refine ⟨h.concat hblock rfl (isRhythm_of_isAttack hattack) ?_ huntuned.symm hsilent, hblock,
        fun hyes => ?_, hpitchless⟩
      · rw [if_pos hattack]
        exact huntuned.symm
      · rw [isHold_of_isAttack hattack] at hyes
        cases hyes
  | @held tone hhold htone =>
      have hhold' : (r.withTone tone).isHold = true := hhold
      refine ⟨h.concat hblock rfl (isRhythm_of_isHold hhold') ?_ htone h.attacked, hblock,
        fun _ => ⟨htone.symm.trans (hsounds hhold), fun tone' hsung => ?_⟩, rfl⟩
      · rw [isAttack_of_isHold hhold', if_neg Bool.false_ne_true]
      · rw [← h.attack, h.attacked tone htone]
        exact hsung
  | unheld hhold htone =>
      refine ⟨h.concat hblock rfl (isRhythm_of_isHold hhold) ?_ (htone.trans huntuned.symm) h.attacked,
        hblock, fun _ => ⟨?_, fun tone hsung => ?_⟩, hpitchless⟩
      · rw [isAttack_of_isHold hhold, if_neg Bool.false_ne_true]
      · rw [← hsounds hhold, htone, huntuned]
      · rw [huntuned] at hsung
        cases hsung
  | rest hattack hhold hrest =>
      have hrhythm : r.isRhythm = true := by
        simp [Row.isRhythm, hsource, hrest, Kind.isRhythm]
      refine ⟨h.concat hblock rfl hrhythm ?_ huntuned.symm hsilent, hblock, fun hyes => ?_, hpitchless⟩
      · rw [hattack, if_neg Bool.false_ne_true]
      · rw [hhold] at hyes
        cases hyes
  | other hattack hhold hrest =>
      have hrhythm : r.isRhythm = false := by
        rw [Row.isRhythm_eq]
        simp [hattack, hhold, hrest]
      refine ⟨h.concat_quiet (fun _ => hblock) hrhythm, hblock, fun hyes => ?_, hpitchless⟩
      rw [hhold] at hyes
      cases hyes

end Underlay.State.Recalls

/-- What the underlay does to holds. -/
theorem run_recalls {continues : Int → Bool} (tones : Int → List Tone) {s : Underlay.State}
    {seen rows : Table} (hs : s.Recalls continues seen)
    (hrows : ∀ r ∈ rows, r.source = .lyric → r.letter = none)
    (hordered : rows.Pairwise fun a b => a.source = .lyric → b.source = .lyric → a.block ≤ b.block)
    (hbehind : ∀ r ∈ rows, r.source = .lyric → ∀ block ∈ s.block, block ≤ r.block)
    (hopens : ∀ block, (rows.find? fun r => r.isRhythm && r.block == block).any Row.isHold = true →
      (∀ q ∈ seen, q.isRhythm = true → q.block ≠ block) → continues block = true)
    {before after : Table} {r : Row}
    (hsplit : (Underlay.run continues tones s rows).map (·.1) = before ++ r :: after)
    (hsource : r.source = .lyric) :
    (r.isHold = true → r.HeldBehind (seen ++ before)) ∧ r.hasPitch = r.tone?.isSome := by
  induction rows generalizing s seen before with
  | nil => cases before <;> cases hsplit
  | cons row rows ih =>
      obtain ⟨hrow, hrows⟩ := List.forall_mem_cons.1 hrows
      obtain ⟨hfirst, hordered⟩ := List.pairwise_cons.1 hordered
      obtain ⟨hhere, hbehind⟩ := List.forall_mem_cons.1 hbehind
      -- what opens a block further on does so behind this row too
      have hlater : ∀ row' : Row, row'.isRhythm = row.isRhythm → row'.block = row.block →
          ∀ block, (rows.find? fun r => r.isRhythm && r.block == block).any Row.isHold = true →
          (∀ q ∈ seen ++ [row'], q.isRhythm = true → q.block ≠ block) → continues block = true := by
        intro row' hrhythm hblock block hfind hseen
        obtain ⟨hseen, hrow'⟩ := List.forall_mem_append.1 hseen
        have hnot : ¬ (row.isRhythm && row.block == block) = true := by
          rw [Bool.and_eq_true, beq_iff_eq, ← hrhythm, ← hblock]
          exact fun hboth => hrow' row' List.mem_cons_self hboth.1 hboth.2
        have hskip : (row :: rows).find? (fun r => r.isRhythm && r.block == block)
            = rows.find? fun r => r.isRhythm && r.block == block := List.find?_cons_of_neg hnot
        apply hopens block _ hseen
        rwa [hskip]
      unfold Underlay.run at hsplit
      by_cases hlyric : row.source = .lyric
      · rw [if_pos hlyric, List.map_cons] at hsplit
        obtain ⟨hentered, hblock⟩ := hs.enter (hhere hlyric)
        obtain ⟨hstep, hblock', hheld, hpitch⟩ := hentered.step tones hblock hlyric (hrow hlyric)
          fun hhold hseen => hopens row.block (by
            rw [List.find?_cons_of_pos (by simp [isRhythm_of_isHold hhold])]
            exact hhold) hseen
        obtain ⟨hholds, hrhythm, hrowBlock⟩ :=
          isHold_step tones (s.enter continues row) row
        cases before with
        | nil =>
            obtain ⟨rfl, -⟩ := List.cons.inj hsplit
            rw [List.append_nil, hholds]
            exact ⟨hheld, hpitch⟩
        | cons b before =>
            obtain ⟨rfl, htail⟩ := List.cons.inj hsplit
            have hmore := ih hstep hrows hordered (fun r hr hr' block hb => by
              rw [hblock'] at hb
              exact Option.some.inj hb ▸ hfirst r hr hlyric hr') (hlater _ hrhythm hrowBlock) htail
            rwa [List.append_assoc] at hmore
      · rw [if_neg hlyric, List.map_cons] at hsplit
        have hrhythm : row.isRhythm = false := by simp [Row.isRhythm, hlyric]
        cases before with
        | nil =>
            obtain ⟨rfl, -⟩ := List.cons.inj hsplit
            exact absurd hsource hlyric
        | cons b before =>
            obtain ⟨rfl, htail⟩ := List.cons.inj hsplit
            have hmore := ih (hs.concat_quiet (fun h => absurd h hlyric) hrhythm) hrows hordered
              hbehind (hlater row rfl rfl) htail
            rwa [List.append_assoc] at hmore

-- ============================================================ scores

/-- The pitches of a well-formed score have letters that exist. -/
theorem Score.WellFormed.spelled {s : Score} (h : s.WellFormed) : s.Spelled := by
  intro b hb p hp
  have hall : ∀ name ∈ ["a", "b", "c", "d", "e", "f", "g"], ∃ l ∈ Letter.all, name = l.name := by
    decide
  obtain ⟨-, -, hpitches, -⟩ := h.2 b hb
  obtain ⟨l, -, hl⟩ := hall p.letter (hpitches.1 _ hp).1
  exact ⟨l, hl⟩

/-- The lines of a score that was read: voicing does not fail on them, and behind the underlay they
are ordered and their rows without tones are those of the layout. -/
theorem exists_voiced_of_parse {text : String} {s : Score} (h : Score.parse text = .ok s) :
    ∃ v, s.layout.voiced = .ok v ∧ v.Laid
      ∧ ∀ r ∈ v, r.source = .lyric → r.letter = none := by
  have hform := Reader.wellFormed_of_parse h
  obtain ⟨v, hv⟩ : ∃ v, s.layout.voiced = .ok v :=
    exists_resolve fun r hr hsource => letter_of_mem_layout hform.spelled hr hsource
  obtain ⟨huntoned, hlyric, -⟩ := resolve_spec hv
  have houtline : v.map Row.outline = s.layout.map Row.outline := by
    have hsame : Row.outline = Row.outline ∘ Row.untoned := rfl
    rw [hsame, ← List.map_map, huntoned, List.map_map]
  refine ⟨v, hv, (Score.layout_laid (one_le_duration_of_parse h)).of_outline houtline, ?_⟩
  intro r hr hsource
  exact ((bare_of_mem_layout (hlyric r hr hsource)).untuned hsource).1

/-- The nearest attack before a place. -/
def Table.attackBefore (t : Table) (place : Nat) : Option Row :=
  Table.lastAttack? (t.take place)

/-- What the underlay makes of the holds of an ordered table. -/
theorem Table.Laid.heldBehind {v : Table} (hlaid : v.Laid)
    (hletter : ∀ r ∈ v, r.source = .lyric → r.letter = none) {p : PlacedRow}
    (hp : p ∈ (v.underlaid.map (·.1)).zipIdx) (hsource : p.1.source = .lyric) :
    (p.1.isHold = true → p.1.HeldBehind ((v.underlaid.map (·.1)).take p.2))
      ∧ p.1.hasPitch = p.1.tone?.isSome := by
  have hget : (v.underlaid.map (·.1))[p.2]? = some p.1 := List.mem_zipIdx_iff_getElem?.1 hp
  obtain ⟨hlt, hrow⟩ := List.getElem?_eq_some_iff.1 hget
  have hsplit : v.underlaid.map (·.1) = (v.underlaid.map (·.1)).take p.2
      ++ p.1 :: (v.underlaid.map (·.1)).drop (p.2 + 1) := by
    rw [← hrow, ← List.drop_eq_getElem_cons hlt, List.take_append_drop]
  have hordered : v.Pairwise fun a b => a.source = .lyric → b.source = .lyric → a.block ≤ b.block := by
    refine hlaid.ordered.imp fun {a b} hab ha hb => hab.1 ?_ ?_
    · rw [ha]
      decide
    · rw [hb]
      decide
  have hnone : ∀ {P : Int → Prop}, ∀ block ∈ ({} : Underlay.State).block, P block :=
    fun block hblock => (Option.some_ne_none block hblock.symm).elim
  have hstart : Underlay.State.Recalls v.opensWithHold {} [] :=
    ⟨rfl, hnone, nofun, fun q hq => absurd hq List.not_mem_nil⟩
  apply run_recalls v.tones hstart hletter hordered (fun r _ _ => hnone) _ hsplit hsource
  intro block hfind _
  unfold Table.opensWithHold Table.firstRhythm?
  cases hfirst : v.find? fun r => r.isRhythm && r.block == block with
  | none =>
      rw [hfirst] at hfind
      cases hfind
  | some r =>
      rw [hfirst] at hfind
      have hhold : r.isHold = true := hfind
      rw [Row.isHold, Bool.and_eq_true] at hhold
      exact hhold.2

theorem Table.Laid.hasPitch_eq {v : Table} (hlaid : v.Laid)
    (hletter : ∀ r ∈ v, r.source = .lyric → r.letter = none) {r : Row}
    (hr : r ∈ v.underlaid.map (·.1)) (hsource : r.source = .lyric) : r.hasPitch = r.tone?.isSome := by
  obtain ⟨place, hplace⟩ := List.getElem?_of_mem hr
  have hmem : (r, place) ∈ (v.underlaid.map (·.1)).zipIdx := List.mem_zipIdx_iff_getElem?.2 hplace
  exact (hlaid.heldBehind hletter hmem hsource).2

/-- A row with a pitch sings the tone of the last attack up to it. -/
theorem Table.Laid.tone?_rhythmBefore {v : Table} (hlaid : v.Laid)
    (hletter : ∀ r ∈ v, r.source = .lyric → r.letter = none)
    (htuned : Table.Tuned (v.underlaid.map (·.1))) {place : Nat} {q : Row}
    (hq : Table.rhythmBefore (v.underlaid.map (·.1)) place = some q) :
    q.hasPitch = q.tone?.isSome ∧ (q.hasPitch = true → (q.isAttack = true ∨ q.isHold = true)
      ∧ q.tone? = (Table.attackBefore (v.underlaid.map (·.1)) place).bind Row.tone?) := by
  obtain ⟨hrhythm, before, after, hsplit, hafter⟩ := Table.lastRhythm?_eq_some hq
  generalize ht : v.underlaid.map (·.1) = t at *
  have hplace : t = before ++ q :: (after ++ t.drop place) := by
    rw [← List.cons_append, ← List.append_assoc, ← hsplit, List.take_append_drop]
  have hmem : (q, before.length) ∈ t.zipIdx := by
    apply List.mem_zipIdx_iff_getElem?.2
    rw [hplace]
    simp
  have htake : t.take before.length = before := by
    rw [hplace, List.take_left]
  have hsource : q.source = .lyric := by
    simp only [Row.isRhythm, Bool.and_eq_true, beq_iff_eq] at hrhythm
    exact hrhythm.1
  have hheld := hlaid.heldBehind hletter (p := (q, before.length)) (ht ▸ hmem) hsource
  rw [ht, htake] at hheld
  refine ⟨hheld.2, fun hpitch => ?_⟩
  unfold Table.attackBefore
  rw [hsplit, Table.lastAttack?_append hafter]
  by_cases hattack : q.isAttack = true
  · rw [if_pos hattack]
    exact ⟨Or.inl hattack, rfl⟩
  · rw [if_neg hattack]
    by_cases hhold : q.isHold = true
    · refine ⟨Or.inr hhold, ?_⟩
      obtain ⟨tone, htone⟩ := Option.isSome_iff_exists.1 (hheld.2.symm.trans hpitch)
      rw [(hheld.1 hhold).attack tone htone, htone]
    · -- a rest has no pitch
      rw [Row.isRhythm_eq] at hrhythm
      simp only [hattack, hhold, Bool.false_or, Bool.and_eq_true, beq_iff_eq] at hrhythm
      have hmem' : q ∈ t := hplace ▸ List.mem_append_right _ List.mem_cons_self
      have hnone := (htuned q hmem' hsource).silent hrhythm.2
      simp [Row.hasPitch, hnone] at hpitch

/-- A row goes on with the row before it: if it has a pitch, that is an attack or a hold of the same
letter, accidental and octave. -/
def Row.GoesOnWith (q? : Option Row) (r : Row) : Prop :=
  r.hasPitch = true → ∃ q ∈ q?, (q.isAttack = true ∨ q.isHold = true) ∧ q.hasPitch = true
    ∧ q.SameTone r

/-- A row opens its block behind one without a pitch, and there is an attack with a pitch
somewhere before. -/
def Row.Reopens (q? a? : Option Row) (r : Row) : Prop :=
  ∃ q ∈ q?, ∃ a ∈ a?, q.block ≠ r.block ∧ q.hasPitch = false ∧ a.hasPitch = true

/-- A hold `r`, the row `q` before it and the last attack `a`: when the hold goes on with the row,
and what it does when not. -/
theorem Row.goesOnWith_iff {r : Row} {q? a? : Option Row} (hr : r.hasPitch = r.tone?.isSome)
    (hq : ∀ q ∈ q?, q.hasPitch = q.tone?.isSome ∧ (q.hasPitch = true →
      (q.isAttack = true ∨ q.isHold = true) ∧ q.tone? = a?.bind Row.tone?))
    (ha : ∀ a ∈ a?, a.hasPitch = a.tone?.isSome)
    (htone : r.tone? = q?.bind fun q => if q.block = r.block then q.tone? else a?.bind Row.tone?) :
    (r.GoesOnWith q? ↔ ¬ r.Reopens q? a?)
      ∧ (r.Reopens q? a? → r.hasPitch = true ∧ ∃ a ∈ a?, a.SameTone r) := by
  -- a hold that opens its block takes the pitch of the attack
  have hcarried : r.Reopens q? a? → r.hasPitch = true ∧ ∃ a ∈ a?, a.SameTone r := by
    intro hreopens
    obtain ⟨q, hq, a, hmem, hne, -, hayes⟩ := hreopens
    obtain ⟨tone, hsung⟩ := Option.isSome_iff_exists.1 ((ha a hmem).symm.trans hayes)
    have hown : r.tone? = some tone := by
      rw [htone, hq, Option.bind_some, if_neg hne, hmem, Option.bind_some, hsung]
    exact ⟨by rw [hr, hown]; rfl, a, hmem, Row.sameTone_of_tone? hsung hown⟩
  refine ⟨⟨?_, ?_⟩, hcarried⟩
  · intro hgoes hreopens
    obtain ⟨q', hq', -, hsings, -⟩ := hgoes (hcarried hreopens).1
    obtain ⟨q, hq, a, -, -, hsilent, -⟩ := hreopens
    obtain rfl : q = q' := Option.some.inj (hq.symm.trans hq')
    rw [hsilent] at hsings
    cases hsings
  · intro hnot hyes
    obtain ⟨tone, hsung⟩ := Option.isSome_iff_exists.1 (hr.symm.trans hyes)
    obtain ⟨q, hmem, hgoes⟩ := Option.bind_eq_some_iff.1 (htone.symm.trans hsung)
    obtain ⟨hqpitch, hqtone⟩ := hq q hmem
    have hqyes : q.hasPitch = true := by
      by_cases hblock : q.block = r.block
      · rw [if_pos hblock] at hgoes
        rw [hqpitch, hgoes]
        rfl
      · rw [if_neg hblock] at hgoes
        obtain ⟨a, hmem', hasung⟩ := Option.bind_eq_some_iff.1 hgoes
        have hayes : a.hasPitch = true := by rw [ha a hmem', hasung]; rfl
        apply Decidable.byContradiction
        intro hsilent
        exact hnot ⟨q, hmem, a, hmem', hblock, Bool.eq_false_iff.2 hsilent, hayes⟩
    obtain ⟨hkind, hqsame⟩ := hqtone hqyes
    refine ⟨q, hmem, hkind, hqyes, Row.sameTone_of_tone? ?_ hsung⟩
    by_cases hblock : q.block = r.block
    · rwa [if_pos hblock] at hgoes
    · rw [if_neg hblock] at hgoes
      rw [hqsame, hgoes]

/-- Where a sustain ends at a rest. For every score that was read, voicing succeeds, and behind the
underlay a hold goes on with the row before it that takes time, in whatever block, so that it has no
pitch behind a rest: all holds do, but those that open a block behind a row without a pitch when
there is an attack with one somewhere before. Such a hold has the pitch of that attack. -/
theorem Score.goesOnWith_rhythmBefore {text : String} {s : Score} (h : Score.parse text = .ok s) :
    ∃ v lines, s.layout.voiced = .ok v ∧ lines = v.underlaid.map (·.1)
      ∧ ∀ p ∈ lines.zipIdx, p.1.isHold = true →
        (p.1.GoesOnWith (Table.rhythmBefore lines p.2)
            ↔ ¬ p.1.Reopens (Table.rhythmBefore lines p.2) (Table.attackBefore lines p.2))
        ∧ (p.1.Reopens (Table.rhythmBefore lines p.2) (Table.attackBefore lines p.2) →
            p.1.hasPitch = true ∧ ∃ a ∈ Table.attackBefore lines p.2, a.SameTone p.1) := by
  obtain ⟨v, hv, hlaid, hletter⟩ := exists_voiced_of_parse h
  refine ⟨v, _, hv, rfl, fun p hp hhold => ?_⟩
  have hsource : p.1.source = .lyric := by
    simp only [Row.isHold, Bool.and_eq_true, beq_iff_eq] at hhold
    exact hhold.1
  obtain ⟨hheld, hpitch⟩ := hlaid.heldBehind hletter hp hsource
  apply Row.goesOnWith_iff hpitch _ _ (hheld hhold).tone
  · intro q hq
    exact hlaid.tone?_rhythmBefore hletter (underlaid_spec hv).2.1 hq
  · intro a ha
    have hmem : a ∈ (v.underlaid.map (·.1)).take p.2 :=
      List.mem_reverse.1 (List.mem_of_find?_eq_some ha)
    have hattack : a.isAttack = true := List.find?_some ha
    rw [Row.isAttack, Bool.and_eq_true, beq_iff_eq] at hattack
    exact hlaid.hasPitch_eq hletter (List.mem_of_mem_take hmem) hattack.1

/-- A note and a rest, then a block that opens with a hold. -/
def restedText : String :=
  "la ;\nc\n\n-\nc"

/-- The rows of the text with their pitches, one of them a hold behind the rest. -/
def restedRows : {v // ((Score.parse restedText).bind fun s => s.layout.voiced) = .ok v
    ∧ ∃ p ∈ (v.underlaid.map (·.1)).zipIdx, p.1.isHold = true ∧ p.1.hasPitch = true
      ∧ (Table.rhythmBefore (v.underlaid.map (·.1)) p.2).any (fun q => q.kind == .rest) = true} :=
  checked (by decide +kernel)

theorem Score.goesOnWith_rhythmBefore_restedText :
    ∃ s, Score.parse restedText = .ok s
      ∧ ∃ v lines, s.layout.voiced = .ok v ∧ lines = v.underlaid.map (·.1)
        ∧ ∀ p ∈ lines.zipIdx, p.1.isHold = true →
          (p.1.GoesOnWith (Table.rhythmBefore lines p.2)
              ↔ ¬ p.1.Reopens (Table.rhythmBefore lines p.2) (Table.attackBefore lines p.2))
          ∧ (p.1.Reopens (Table.rhythmBefore lines p.2) (Table.attackBefore lines p.2) →
              p.1.hasPitch = true ∧ ∃ a ∈ Table.attackBefore lines p.2, a.SameTone p.1) := by
  obtain ⟨v, hread, -⟩ := restedRows
  obtain ⟨s, hparse, -⟩ := bind_eq_ok.1 hread
  exact ⟨s, hparse, Score.goesOnWith_rhythmBefore hparse⟩

/-- The note of the first block outlives the rest behind it. -/
theorem Score.hold_outlives_rest :
    ∃ s v, Score.parse restedText = .ok s ∧ s.layout.voiced = .ok v
      ∧ ∃ p ∈ (v.underlaid.map (·.1)).zipIdx, p.1.isHold = true ∧ p.1.hasPitch = true
        ∧ (Table.rhythmBefore (v.underlaid.map (·.1)) p.2).any (fun q => q.kind == .rest) = true := by
  obtain ⟨v, hread, hheld⟩ := restedRows
  obtain ⟨s, hparse, hv⟩ := bind_eq_ok.1 hread
  exact ⟨s, v, hparse, hv, hheld⟩

end LyricScore
