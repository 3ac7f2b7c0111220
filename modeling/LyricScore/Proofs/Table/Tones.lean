/-
Tones for the rows. Voicing gives octaves to pitch rows whose letters exist, and the underlay
hands these tones to the lyric rows; nothing else changes. So a lyric row that sings has a letter
and an octave, rests sing nothing, and a score does not start with a hold that sings.
-/
import LyricScore.Proofs.Sequence
import LyricScore.Proofs.Table.Frame
import LyricScore.Proofs.Table.Underlay

namespace LyricScore

/-- A row without its tone. -/
def Row.untoned (r : Row) : Row :=
  { r with letter := none, accidental := none, octave := none }

-- =========================================================== voicing

theorem letter_of_ofName? {name : String} {letter : Letter} (h : Letter.ofName? name = some letter) :
    name = letter.name := by
  unfold Letter.ofName? at h
  have hname := List.find?_some h
  simp only [beq_iff_eq] at hname
  exact hname.symm

theorem letter_of_ofName {name : String} {letter : Letter} (h : Letter.ofName name = .ok letter) :
    name = letter.name := by
  unfold Letter.ofName at h
  split at h
  · next l hl =>
    obtain rfl := Except.ok.inj h
    exact letter_of_ofName? hl
  · cases h

theorem sungLetter?_eq_some {r : Row} {name : String} :
    Voicing.sungLetter? r = some name ↔ r.source = .pitch ∧ r.letter = some name := by
  unfold Voicing.sungLetter?
  split
  · next hsource => exact (and_iff_right hsource).symm
  · next hsource => exact iff_of_false (Option.some_ne_none name ·.symm) fun h => hsource h.1

/-- What voicing does to one row: it goes on from the voice at the row, or it moves that voice to
the letter of the row and gives the row its octave. -/
theorem resolve_cons {continues : Int → Bool} {block : Option Int} {v : Voice} {r : Row}
    {rows out : List Row} (h : Voicing.resolve continues block v (r :: rows) = .ok out) :
    ∃ r' rest next, out = r' :: rest
      ∧ Voicing.resolve continues (if Voicing.enters block r then some r.block else block) next rows
        = .ok rest
      ∧ (Voicing.sungLetter? r = none ∧ r' = r ∧ next = Voicing.start continues block v r
        ∨ ∃ letter : Letter, r.source = .pitch ∧ r.letter = some letter.name
          ∧ next = (Voicing.start continues block v r).move letter r.shift
          ∧ r' = { r with octave := some next.octave }) := by
  simp only [Voicing.resolve] at h
  split at h
  · next hletter =>
    split at h
    · cases h
    · next rest hrest =>
      obtain rfl := Except.ok.inj h
      exact ⟨r, rest, _, rfl, hrest, Or.inl ⟨hletter, rfl, rfl⟩⟩
  · next name hletter =>
    split at h
    · cases h
    next letter hname =>
    split at h
    · cases h
    · next rest hrest =>
      obtain rfl := Except.ok.inj h
      obtain ⟨hsource, hl⟩ := sungLetter?_eq_some.1 hletter
      rw [letter_of_ofName hname] at hl
      exact ⟨_, rest, _, rfl, hrest, Or.inr ⟨letter, hsource, hl, rfl, rfl⟩⟩

/-- What voicing does: rows keep all but their octaves, lyric rows keep those too, and the pitch
rows have letters that exist. -/
theorem resolve_spec {continues : Int → Bool} {block : Option Int} {v : Voice}
    {rows out : List Row} (h : Voicing.resolve continues block v rows = .ok out) :
    out.map Row.untoned = rows.map Row.untoned
      ∧ (∀ r ∈ out, r.source = .lyric → r ∈ rows)
      ∧ ∀ r ∈ out, r.source = .pitch → ∀ name ∈ r.letter, ∃ l : Letter, name = l.name := by
  induction rows generalizing block v out with
  | nil =>
      obtain rfl := Except.ok.inj h
      exact ⟨rfl, fun r hr => absurd hr List.not_mem_nil, fun r hr => absurd hr List.not_mem_nil⟩
  | cons r rows ih =>
      obtain ⟨r', rest, next, rfl, hrest, hr'⟩ := resolve_cons h
      obtain ⟨hmap, hlyric, hpitch⟩ := ih hrest
      have hlater : ∀ q ∈ rest, q.source = .lyric → q ∈ r :: rows := fun q hq hsource =>
        List.mem_cons_of_mem _ (hlyric q hq hsource)
      rw [List.map_cons, List.map_cons, hmap]
      rcases hr' with ⟨hnone, rfl, -⟩ | ⟨letter, hsource, hletter, -, rfl⟩
      · refine ⟨rfl, List.forall_mem_cons.2 ⟨fun _ => List.mem_cons_self, hlater⟩,
          List.forall_mem_cons.2 ⟨fun hsource name hname => ?_, hpitch⟩⟩
        rw [sungLetter?_eq_some.2 ⟨hsource, hname⟩] at hnone
        cases hnone
      · refine ⟨rfl, List.forall_mem_cons.2 ⟨fun hlyr => ?_, hlater⟩,
          List.forall_mem_cons.2 ⟨fun _ name hname => ?_, hpitch⟩⟩
        · exact absurd (hsource.symm.trans hlyr) (by decide)
        · exact ⟨letter, Option.some.inj (hname.symm.trans hletter)⟩

/-- Voicing fails only on a letter that does not exist. -/
theorem exists_resolve {continues : Int → Bool} {block : Option Int} {v : Voice} {rows : Table}
    (h : ∀ r ∈ rows, r.source = .pitch → ∀ name ∈ r.letter, ∃ l : Letter, name = l.name) :
    ∃ out, Voicing.resolve continues block v rows = .ok out := by
  induction rows generalizing block v with
  | nil => exact ⟨[], rfl⟩
  | cons r rows ih =>
      obtain ⟨hr, hrows⟩ := List.forall_mem_cons.1 h
      unfold Voicing.resolve
      dsimp only
      cases hletter : Voicing.sungLetter? r with
      | none =>
          obtain ⟨out, hout⟩ := @ih (if Voicing.enters block r then some r.block else block)
            (Voicing.start continues block v r) hrows
          exact ⟨r :: out, by rw [hout]⟩
      | some name =>
          have hname : ∃ l : Letter, name = l.name := by
            unfold Voicing.sungLetter? at hletter
            split at hletter
            · next hsource => exact hr hsource name hletter
            · cases hletter
          obtain ⟨l, rfl⟩ := hname
          have hknown : Letter.ofName l.name = .ok l := by cases l <;> rfl
          obtain ⟨out, hout⟩ := @ih (if Voicing.enters block r then some r.block else block)
            ((Voicing.start continues block v r).move l r.shift) hrows
          simp only [hknown, hout]
          exact ⟨_, rfl⟩

-- ========================================================== underlay

/-- A tone whose letter exists. -/
def Tone.Valid (tone : Tone) : Prop :=
  ∃ l : Letter, tone.letter = l.name

/-- The tones that the underlay keeps in mind exist. -/
def Underlay.State.Valid (s : Underlay.State) : Prop :=
  (∀ tone ∈ s.sounding, tone.Valid) ∧ ∀ tone ∈ s.lastAttack, tone.Valid

theorem Underlay.State.Valid.enter {s : Underlay.State} (h : s.Valid) (continues : Int → Bool)
    (r : Row) : (s.enter continues r).Valid := by
  unfold Underlay.State.enter
  split
  · exact h
  · refine ⟨fun tone htone => ?_, h.2⟩
    simp only at htone
    split at htone
    · exact h.2 tone htone
    · cases htone

/-- What one step of the underlay does: the row stays as it is, or it gets a tone, which a rest
never does. -/
theorem step_spec {tones : Int → List Tone} {s : Underlay.State} {r : Row}
    (htones : ∀ block, ∀ tone ∈ tones block, tone.Valid) (hs : s.Valid) :
    (Underlay.step tones s r).1.Valid
      ∧ ((Underlay.step tones s r).2.1 = r
        ∨ ∃ tone, tone.Valid ∧ r.kind ≠ .rest ∧ (Underlay.step tones s r).2.1 = r.withTone tone) := by
  have hsilent : ∀ tone ∈ (none : Option Tone), tone.Valid := fun tone h =>
    absurd h.symm (Option.some_ne_none tone)
  have hstep := Underlay.step_stepped tones s r
  generalize Underlay.step tones s r = out at hstep ⊢
  cases hstep with
  | @sung tone hattack htone =>
      have hrest : r.kind ≠ .rest := fun h => by simp [Row.isAttack, h, Kind.isAttack] at hattack
      have hvalid := htones r.block tone (List.mem_of_getElem? htone)
      have hall : ∀ tone' ∈ some tone, tone'.Valid := fun tone' h => Option.some.inj h ▸ hvalid
      exact ⟨⟨hall, hall⟩, Or.inr ⟨tone, hvalid, hrest, rfl⟩⟩
  | silent => exact ⟨⟨hsilent, hsilent⟩, Or.inl rfl⟩
  | @held tone hhold hsounding =>
      have hrest : r.kind ≠ .rest := fun h => by simp [Row.isHold, h, Kind.isHold] at hhold
      exact ⟨hs, Or.inr ⟨tone, hs.1 tone hsounding, hrest, rfl⟩⟩
  | unheld => exact ⟨hs, Or.inl rfl⟩
  | rest => exact ⟨⟨hsilent, hs.2⟩, Or.inl rfl⟩
  | other => exact ⟨hs, Or.inl rfl⟩

/-- A step keeps all of a row but its tone. -/
theorem untoned_step (tones : Int → List Tone) (s : Underlay.State) (r : Row) :
    (Underlay.step tones s r).2.1.untoned = r.untoned := by
  have hstep := Underlay.step_stepped tones s r
  generalize Underlay.step tones s r = out at hstep ⊢
  cases hstep <;> rfl

/-- A row that attacks, holds, or does neither, stays so. -/
theorem isHold_step (tones : Int → List Tone) (s : Underlay.State) (r : Row) :
    (Underlay.step tones s r).2.1.isHold = r.isHold
      ∧ (Underlay.step tones s r).2.1.isRhythm = r.isRhythm
      ∧ (Underlay.step tones s r).2.1.block = r.block := by
  have hkeeps : ∀ {β : Type} (g : Row → β), g (Underlay.step tones s r).2.1.untoned = g r.untoned :=
    fun g => congrArg g (untoned_step tones s r)
  exact ⟨hkeeps Row.isHold, hkeeps Row.isRhythm, hkeeps Row.block⟩

/-- What the underlay does: rows keep all but their tones, and lyric rows that came without tones
are tuned. -/
theorem run_spec {continues : Int → Bool} {tones : Int → List Tone} {s : Underlay.State}
    {rows : List Row} (htones : ∀ block, ∀ tone ∈ tones block, tone.Valid) (hs : s.Valid)
    (hrows : ∀ r ∈ rows, r.source = .lyric → r.letter = none ∧ r.octave = none) :
    ((Underlay.run continues tones s rows).map (·.1)).map Row.untoned = rows.map Row.untoned
      ∧ Table.Tuned ((Underlay.run continues tones s rows).map (·.1)) := by
  induction rows generalizing s with
  | nil => exact ⟨rfl, fun r hr => absurd hr List.not_mem_nil⟩
  | cons r rest ih =>
      obtain ⟨hr, hrest⟩ := List.forall_mem_cons.1 hrows
      unfold Underlay.run
      split
      · next hsource =>
        obtain ⟨hletter, hoctave⟩ := hr hsource
        obtain ⟨hvalid, hrow⟩ := step_spec htones (hs.enter continues r) (r := r)
        obtain ⟨hmap, htuned⟩ := ih hvalid hrest
        refine ⟨?_, List.forall_mem_cons.2 ⟨fun _ => ?_, htuned⟩⟩
        · show (Underlay.step _ _ _).2.1.untoned :: _ = _
          rw [hmap, untoned_step, List.map_cons]
        · show (Underlay.step _ _ _).2.1.Tuned
          rcases hrow with h | ⟨tone, ⟨l, hl⟩, hkind, h⟩ <;> rw [h]
          · refine ⟨by rw [hletter, hoctave]; rfl, fun name hname => ?_, fun _ => hletter⟩
            rw [hletter] at hname
            cases hname
          · exact ⟨rfl, fun name hname => ⟨l, Option.some.inj hname ▸ hl⟩,
              fun h => absurd h hkind⟩
      · next hsource =>
        obtain ⟨hmap, htuned⟩ := ih hs hrest
        exact ⟨by rw [List.map_cons, List.map_cons, hmap, List.map_cons],
          List.forall_mem_cons.2 ⟨fun h => absurd h hsource, htuned⟩⟩

/-- A hold behind nothing stays silent. -/
theorem step_of_hold {tones : Int → List Tone} {s : Underlay.State} {r : Row}
    (hsounding : s.sounding = none) (h : (Underlay.step tones s r).2.1.isHold = true) :
    (Underlay.step tones s r).2.1 = r := by
  have hstep := Underlay.step_stepped tones s r
  generalize Underlay.step tones s r = out at hstep h ⊢
  cases hstep with
  | sung hattack =>
      have hhold : r.isHold = true := h
      rw [isHold_of_isAttack hattack] at hhold
      cases hhold
  | held hhold htone =>
      rw [hsounding] at htone
      cases htone
  | silent | unheld | rest | other => rfl

/-- A row that takes no time leaves the state as it is. -/
theorem step_of_quiet {tones : Int → List Tone} {s : Underlay.State} {r : Row}
    (hsource : r.source = .lyric) (h : r.isRhythm = false) : (Underlay.step tones s r).1 = s := by
  have hstep := Underlay.step_stepped tones s r
  generalize Underlay.step tones s r = out at hstep ⊢
  cases hstep with
  | sung hattack | silent hattack =>
      rw [isRhythm_of_isAttack hattack] at h
      cases h
  | rest hattack hhold hrest => simp [Row.isRhythm_eq, hsource, hrest] at h
  | held | unheld | other => rfl

/-- A score does not start with a hold that sings: there is nothing yet to hold. -/
theorem run_starts_silent {continues : Int → Bool} {tones : Int → List Tone} {s : Underlay.State}
    {rows : List Row} (hsounding : s.sounding = none) (hlast : s.lastAttack = none)
    (hrows : ∀ r ∈ rows, r.source = .lyric → r.letter = none ∧ r.octave = none) :
    Linked Row.isRhythm (fun previous r => previous = none → r.isHold = true → r.hasPitch = false) none
      ((Underlay.run continues tones s rows).map (·.1)) := by
  induction rows generalizing s with
  | nil => exact Linked.nil
  | cons r rest ih =>
      obtain ⟨hr, hrest⟩ := List.forall_mem_cons.1 hrows
      unfold Underlay.run
      split
      · next hsource =>
        have hsounding' : (s.enter continues r).sounding = none := by
          unfold Underlay.State.enter
          split
          · exact hsounding
          · simp [hlast]
        have hlast' : (s.enter continues r).lastAttack = none := by
          unfold Underlay.State.enter
          split
          · exact hlast
          · exact hlast
        generalize s.enter continues r = s' at hsounding' hlast'
        obtain ⟨hletter, -⟩ := hr hsource
        rw [List.map_cons, Linked.cons_iff]
        split
        · next hrhythm =>
          refine ⟨fun _ hhold => ?_, Linked.behind _⟩
          rw [step_of_hold hsounding' hhold]
          simp [Row.hasPitch, hletter]
        · next hrhythm =>
          rw [(isHold_step tones s' r).2.1, Bool.not_eq_true] at hrhythm
          rw [step_of_quiet hsource hrhythm]
          exact ih hsounding' hlast' hrest
      · next hsource =>
        have hrhythm : r.isRhythm = false := by simp [Row.isRhythm, hsource]
        rw [List.map_cons, Linked.cons_of_neg hrhythm]
        exact ih hsounding hlast hrest

-- ============================================================ tables

/-- A row as the layout makes it: nothing is announced, no key and no text is set, and a lyric
row has no tone yet. -/
structure Row.Bare (r : Row) : Prop where
  source : r.source ≠ .header
  directive : r.directive = ""
  key : r.key = none
  draftText : r.draftText = none
  untuned : r.source = .lyric → r.letter = none ∧ r.octave = none

theorem bare_of_mem_layout {s : Score} {r : Row} (h : r ∈ s.layout) : r.Bare := by
  obtain ⟨b, -, number, hlays⟩ := Score.lays_of_mem_layout h
  cases hlays with
  | lyricBar | unit | segment => exact ⟨nofun, rfl, rfl, rfl, fun _ => ⟨rfl, rfl⟩⟩
  | opening | pitchBar | key | pitch => exact ⟨nofun, rfl, rfl, rfl, nofun⟩

/-- The pitches of a score have letters that exist. -/
def Score.Spelled (s : Score) : Prop :=
  ∀ b ∈ s.blocks, ∀ p, PitchItem.pitch p ∈ b.pitches.items → ∃ l : Letter, p.letter = l.name

/-- The pitch rows of a score name the letters of its pitches. -/
theorem letter_of_mem_layout {s : Score} (hs : s.Spelled) {r : Row} (hr : r ∈ s.layout)
    (hsource : r.source = .pitch) : ∀ name ∈ r.letter, ∃ l : Letter, name = l.name := by
  obtain ⟨b, hb, number, hlays⟩ := Score.lays_of_mem_layout hr
  cases hlays with
  | lyricBar | unit | segment => cases hsource
  | opening | pitchBar | key => exact nofun
  | pitch _ hmem =>
      intro name hname
      obtain rfl := Option.some.inj hname
      exact hs b hb _ hmem

/-- The tones that a table offers exist if the letters of its pitch rows do. -/
theorem valid_of_mem_tones {t : Table} {block : Int} {tone : Tone}
    (ht : ∀ r ∈ t, r.source = .pitch → ∀ name ∈ r.letter, ∃ l : Letter, name = l.name)
    (h : tone ∈ t.tones block) : tone.Valid := by
  obtain ⟨r, hr, hoffer⟩ := List.mem_filterMap.1 h
  split at hoffer
  · unfold Row.offeredTone? at hoffer
    split at hoffer
    · next hkind =>
      split at hoffer
      · next letter octave hletter _ =>
        obtain rfl := Option.some.inj hoffer
        exact ht r hr hkind.1 letter hletter
      · cases hoffer
    · cases hoffer
  · cases hoffer

/-- What a score looks like behind the underlay. -/
theorem underlaid_spec {s : Score} {v : Table} (h : s.layout.voiced = .ok v) :
    (v.underlaid.map (·.1)).map Row.untoned = s.layout.map Row.untoned
      ∧ Table.Tuned (v.underlaid.map (·.1))
      ∧ Linked Row.isRhythm (fun previous r => previous = none → r.isHold = true → r.hasPitch = false) none
          (v.underlaid.map (·.1)) := by
  obtain ⟨hmap, hlyric, hpitch⟩ := resolve_spec h
  have hbare : ∀ r ∈ v, r.source = .lyric → r.letter = none ∧ r.octave = none := fun r hr hsource =>
    (bare_of_mem_layout (hlyric r hr hsource)).untuned hsource
  obtain ⟨hunder, htuned⟩ := @run_spec v.opensWithHold v.tones {} v
    (fun block tone htone => valid_of_mem_tones hpitch htone) ⟨nofun, nofun⟩ hbare
  exact ⟨hunder.trans hmap, htuned, run_starts_silent rfl rfl hbare⟩

end LyricScore
