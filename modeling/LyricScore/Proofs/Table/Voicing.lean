/-
The nearest pitch. Seven letters make an octave, so a pitch has a position among all letters: seven
for each octave and the place of its letter in it. Voicing puts every pitch at most three letters
from the one before it, explicit shifts apart; and since octaves are seven letters apart, no other
choice of octaves does that.

# What comes before a pitch

The voice starts over from middle C where the rows of a block start, unless the block goes on with a
held note. `Table.pitchBefore?` looks back from a place for the latest pitch since then. Voicing looks
forward instead and carries the position along; `resolve_near` is the induction that joins the two.
That the octaves are the only ones needs no voicing: two choices that agree up to a place agree on
what comes before it, and so they agree on it (`Table.Nearest.unique`).
-/
import LyricScore.Proofs.Table.Linked
import LyricScore.Proofs.Table.Tones
import Mathlib.Data.List.Forall2

namespace LyricScore

-- ========================================================= positions

theorem Letter.degree_bounds (l : Letter) : 0 ≤ l.degree ∧ l.degree ≤ 6 := by
  cases l <;> decide

/-- Where a voice is among all letters. -/
def Voice.position (v : Voice) : Int :=
  7 * v.octave + v.letter.degree

/-- A voice moves by three letters at most, and by whole octaves as it is told. -/
theorem Voice.move_near (v : Voice) (letter : Letter) (shift : Int) :
    ((v.move letter shift).position - v.position - 7 * shift).natAbs ≤ 3 := by
  have hnew := letter.degree_bounds
  have hold := v.letter.degree_bounds
  simp only [Voice.move, Voice.position, nearestOctave]
  split
  · omega
  split <;> omega

/-- A row of a pitch line that names a letter. -/
def Row.hasLetter (r : Row) : Bool :=
  r.source == .pitch && r.letter.isSome

/-- Where a row is among all letters. -/
def Row.position? (r : Row) : Option Int :=
  (r.letter.bind Letter.ofName?).bind fun letter =>
    r.octave.map fun octave => 7 * octave + letter.degree

/-- A pitch at most three letters from a position before it, explicit shifts apart. -/
def Row.Near (r : Row) (before? : Option Int) : Prop :=
  ∃ position before, r.position? = some position ∧ before? = some before
    ∧ (position - before - 7 * r.shift).natAbs ≤ 3

-- ====================================================== looking back

namespace Table

/-- The row before a place, headings apart. -/
def lineBefore? (t : Table) (place : Nat) : Option Row :=
  (t.take place).reverse.find? fun q => q.source != .header

/-- Whether the voice starts over at a place: the rows of a block start there, and the first row of
the block that takes time, if it has one, is no hold. -/
def restartsAt (t : Table) (place : Nat) : Bool :=
  t[place]?.any fun r =>
    r.source != .header && (t.lineBefore? place).all (fun q => q.block != r.block)
      && (t.firstRhythm? r.block).all fun q => !q.kind.isHold

/-- The last place, up to a given one, where the voice starts over; or else the first place. -/
def lastRestart (t : Table) : Nat → Nat
  | 0 => 0
  | place + 1 => if t.restartsAt (place + 1) then place + 1 else t.lastRestart place

/-- The latest pitch before a place since the voice started over. -/
def pitchBefore? (t : Table) (place : Nat) : Option Row :=
  ((t.take place).drop (t.lastRestart place)).reverse.find? Row.hasLetter

/-- The position before a place: that of the latest pitch, or 28 for middle C. -/
def positionBefore? (t : Table) (place : Nat) : Option Int :=
  (t.pitchBefore? place).elim (some 28) Row.position?

/-- Every pitch is near the one before it. -/
def Nearest (t : Table) : Prop :=
  ∀ place (r : Row), t[place]? = some r → r.hasLetter = true → r.Near (t.positionBefore? place)

theorem lastRestart_le (t : Table) (place : Nat) : t.lastRestart place ≤ place := by
  induction place with
  | zero => exact Nat.le_refl 0
  | succ place ih =>
      unfold lastRestart
      split
      · exact Nat.le_refl _
      · exact Nat.le_succ_of_le ih

theorem positionBefore?_of_restarts {t : Table} {place : Nat} (h : t.restartsAt place = true) :
    t.positionBefore? place = some 28 := by
  have hlast : t.lastRestart place = place := by
    cases place with
    | zero => rfl
    | succ place => exact if_pos h
  have hnone : t.pitchBefore? place = none := by
    rw [pitchBefore?, hlast, List.drop_eq_nil_of_le (List.length_take_le place t)]
    rfl
  rw [positionBefore?, hnone]
  rfl

/-- Behind a row where the voice does not start over, the row counts if it is a pitch. -/
theorem positionBefore?_succ {t : Table} {place : Nat} {r : Row} (hr : t[place]? = some r)
    (h : t.restartsAt (place + 1) = false) :
    t.positionBefore? (place + 1)
      = if r.hasLetter = true then r.position? else t.positionBefore? place := by
  obtain ⟨hlt, -⟩ := List.getElem?_eq_some_iff.1 hr
  have hlast : t.lastRestart (place + 1) = t.lastRestart place := if_neg (by simp [h])
  have hlength : t.lastRestart place ≤ (t.take place).length := by
    rw [List.length_take]
    have := t.lastRestart_le place
    omega
  have hpitch : t.pitchBefore? (place + 1)
      = if r.hasLetter = true then some r else t.pitchBefore? place := by
    rw [pitchBefore?, hlast, List.take_add_one, hr, Option.toList_some,
      List.drop_append_of_le_length hlength, find?_reverse_concat]
    rfl
  rw [positionBefore?, hpitch]
  split <;> rfl

end Table

-- ============================================================ voices

theorem Row.hasLetter_eq (r : Row) : r.hasLetter = (Voicing.sungLetter? r).isSome := by
  unfold Row.hasLetter Voicing.sungLetter?
  by_cases hsource : r.source = .pitch
  · rw [if_pos hsource, hsource]
    rfl
  · rw [if_neg hsource, beq_false_of_ne hsource]
    rfl

/-- A choice of an octave, for a row that names a letter. -/
def Row.VoicedAs (r r' : Row) : Prop :=
  if r.hasLetter then ∃ octave, r' = { r with octave := some octave } else r' = r

/-- What voicing decides at a row is whether the voice starts over there. -/
theorem Table.restartsAt_eq {t : Table} {place : Nat} {r : Row} (hr : t[place]? = some r) :
    t.restartsAt place
      = (Voicing.enters ((t.lineBefore? place).map (·.block)) r && !t.opensWithHold r.block) := by
  have hblock : (t.lineBefore? place).all (fun q => q.block != r.block)
      = ((t.lineBefore? place).map (·.block) != some r.block) := by
    cases t.lineBefore? place <;> rfl
  have hhold : (t.firstRhythm? r.block).all (fun q => !q.kind.isHold)
      = !t.opensWithHold r.block := by
    unfold Table.opensWithHold
    cases t.firstRhythm? r.block <;> rfl
  rw [Table.restartsAt, hr, Option.any_some, hblock, hhold]
  rfl

/-- The block at hand behind a row. -/
theorem lineBefore?_succ {t : Table} {place : Nat} {r : Row} (hr : t[place]? = some r) :
    (t.lineBefore? (place + 1)).map (·.block)
      = if Voicing.enters ((t.lineBefore? place).map (·.block)) r then some r.block
        else (t.lineBefore? place).map (·.block) := by
  unfold Table.lineBefore?
  rw [List.take_add_one, hr, Option.toList_some, find?_reverse_concat]
  unfold Voicing.enters
  by_cases hsource : r.source = .header
  · simp [hsource]
  · have hline : (r.source != .header) = true := bne_iff_ne.2 hsource
    rw [hline, if_pos rfl, Bool.true_and, Option.map_some]
    split
    · rfl
    · next hblock =>
      rw [bne_iff_ne, ne_eq, Decidable.not_not] at hblock
      exact hblock.symm

/-- A pitch that a voice was moved to. -/
theorem position?_of_move {r : Row} {letter : Letter} {v : Voice}
    (hletter : r.letter = some letter.name) (hv : v.letter = letter) :
    ({ r with octave := some v.octave } : Row).position? = some v.position := by
  have hknown : Letter.ofName? letter.name = some letter := by cases letter <;> rfl
  simp only [Row.position?, hletter, Option.bind_some, hknown, Option.map_some, Voice.position, hv]

/-- The voice at a row is where the table says, if it was before the row or starts over there. -/
theorem start_position {t : Table} {place : Nat} {r : Row} {v : Voice} (hr : t[place]? = some r)
    (hv : t.restartsAt place = false → t.positionBefore? place = some v.position) :
    t.positionBefore? place = some (Voicing.start t.opensWithHold
      ((t.lineBefore? place).map (·.block)) v r).position := by
  rw [Voicing.start, ← t.restartsAt_eq hr]
  cases hcase : t.restartsAt place with
  | true => exact Table.positionBefore?_of_restarts hcase
  | false => exact hv hcase

/-- Voicing from a place on. If the voice at hand is where the table says, unless it starts over,
all pitches from there on are near the one before them. -/
theorem resolve_near {t seen : Table} {v : Voice} {rows out : List Row} (ht : t = seen ++ out)
    (h : Voicing.resolve t.opensWithHold ((t.lineBefore? seen.length).map (·.block)) v rows = .ok out)
    (hv : t.restartsAt seen.length = false → t.positionBefore? seen.length = some v.position) :
    ∀ place r, seen.length ≤ place → t[place]? = some r → r.hasLetter = true →
      r.Near (t.positionBefore? place) := by
  induction rows generalizing seen v out with
  | nil =>
      obtain rfl := Except.ok.inj h
      intro place r hplace hr
      rw [ht, List.append_nil, List.getElem?_eq_none hplace] at hr
      cases hr
  | cons r rows ih =>
      obtain ⟨r', rest, next, rfl, hrest, hr'⟩ := resolve_cons h
      have hget : t[seen.length]? = some r' := by
        rw [ht, List.getElem?_append_right (Nat.le_refl _), Nat.sub_self, List.getElem?_cons_zero]
      have hlength : (seen ++ [r']).length = seen.length + 1 := by
        rw [List.length_append, List.length_singleton]
      have hhere := start_position hget hv
      -- the row keeps what voicing looks at, so the walk goes on from the place behind it
      have hgoes : t.restartsAt (seen.length + 1) = false →
          t.positionBefore? (seen.length + 1) = some next.position := by
        intro hgoes
        rw [Table.positionBefore?_succ hget hgoes]
        rcases hr' with ⟨hnone, rfl, rfl⟩ | ⟨letter, hsource, hletter, rfl, rfl⟩
        · rw [if_neg (by simp [Row.hasLetter_eq, hnone])]
          exact hhere
        · rw [if_pos (by simp [Row.hasLetter, hsource, hletter])]
          exact position?_of_move hletter rfl
      have hblock : Voicing.resolve t.opensWithHold
          ((t.lineBefore? (seen.length + 1)).map (·.block)) next rows = .ok rest := by
        rw [lineBefore?_succ hget]
        rcases hr' with ⟨-, rfl, -⟩ | ⟨letter, -, -, -, rfl⟩ <;> exact hrest
      rw [← hlength] at hgoes hblock
      have hlater := ih (by rw [ht, List.append_assoc]; rfl) hblock hgoes
      intro place q hplace hq hpitch
      rcases Nat.lt_or_eq_of_le hplace with hlt | rfl
      · exact hlater place q (hlength ▸ hlt) hq hpitch
      · obtain rfl := Option.some.inj (hget.symm.trans hq)
        rcases hr' with ⟨hnone, rfl, rfl⟩ | ⟨letter, -, hletter, rfl, rfl⟩
        · rw [Row.hasLetter_eq, hnone] at hpitch
          cases hpitch
        · exact ⟨_, _, position?_of_move hletter rfl, hhere, Voice.move_near _ letter r.shift⟩

/-- Voicing gives each pitch an octave and leaves all else as it is. -/
theorem resolve_voicedAs {continues : Int → Bool} {block : Option Int} {v : Voice}
    {rows out : List Row} (h : Voicing.resolve continues block v rows = .ok out) :
    List.Forall₂ Row.VoicedAs rows out := by
  induction rows generalizing block v out with
  | nil =>
      obtain rfl := Except.ok.inj h
      exact .nil
  | cons r rows ih =>
      obtain ⟨r', rest, next, rfl, hrest, hr'⟩ := resolve_cons h
      refine .cons ?_ (ih hrest)
      rcases hr' with ⟨hnone, rfl, -⟩ | ⟨letter, hsource, hletter, -, rfl⟩
      · rw [Row.VoicedAs, if_neg (by simp [Row.hasLetter_eq, hnone])]
      · rw [Row.VoicedAs, if_pos (by simp [Row.hasLetter, hsource, hletter])]
        exact ⟨next.octave, rfl⟩

-- ======================================================== uniqueness

theorem untoned_of_voicedAs {r r' : Row} (h : r.VoicedAs r') : r'.untoned = r.untoned := by
  unfold Row.VoicedAs at h
  split at h
  · obtain ⟨octave, rfl⟩ := h
    rfl
  · rw [h]

theorem map_untoned_of_voicedAs {t t' : Table} (h : List.Forall₂ Row.VoicedAs t t') :
    t'.map Row.untoned = t.map Row.untoned := by
  induction h with
  | nil => rfl
  | cons hr _ ih => rw [List.map_cons, List.map_cons, untoned_of_voicedAs hr, ih]

/-- Which blocks go on with a held note does not depend on tones. -/
theorem Table.opensWithHold_untoned (t : Table) :
    Table.opensWithHold (t.map Row.untoned) = t.opensWithHold := by
  funext block
  unfold Table.opensWithHold Table.firstRhythm?
  rw [List.find?_map]
  have hsame : ((fun r => r.isRhythm && r.block == block) ∘ Row.untoned)
      = fun r => r.isRhythm && r.block == block := rfl
  rw [hsame]
  cases t.find? fun r => r.isRhythm && r.block == block <;> rfl

/-- Where the voice starts over does not depend on tones. -/
theorem Table.restartsAt_untoned (t : Table) (place : Nat) :
    Table.restartsAt (t.map Row.untoned) place = t.restartsAt place := by
  cases hr : t[place]? with
  | none => simp [Table.restartsAt, hr]
  | some r =>
      have hget : (t.map Row.untoned)[place]? = some r.untoned := by
        rw [List.getElem?_map, hr, Option.map_some]
      have hline : (Table.lineBefore? (t.map Row.untoned) place).map (·.block)
          = (t.lineBefore? place).map (·.block) := by
        unfold Table.lineBefore?
        rw [← List.map_take, ← List.map_reverse, List.find?_map, Option.map_map]
        rfl
      rw [Table.restartsAt_eq hget, Table.restartsAt_eq hr, hline, t.opensWithHold_untoned]
      rfl

/-- What comes before a place depends on the rows before it and on where the voice starts over. -/
theorem Table.positionBefore?_congr {t t' : Table} {place : Nat}
    (hrows : t.take place = t'.take place)
    (hrestarts : ∀ place, t.restartsAt place = t'.restartsAt place) :
    t.positionBefore? place = t'.positionBefore? place := by
  have hlast : ∀ place, t.lastRestart place = t'.lastRestart place := by
    intro place
    induction place with
    | zero => rfl
    | succ place ih => rw [Table.lastRestart, Table.lastRestart, hrestarts, ih]
  unfold Table.positionBefore? Table.pitchBefore?
  rw [hrows, hlast]

/-- Octaves are seven letters apart, so at most one puts a pitch near a position. -/
theorem Row.VoicedAs.unique {r a b : Row} {before? : Option Int} (ha : r.VoicedAs a)
    (hb : r.VoicedAs b) (hna : a.hasLetter = true → a.Near before?)
    (hnb : b.hasLetter = true → b.Near before?) : a = b := by
  unfold Row.VoicedAs at ha hb
  by_cases hpitch : r.hasLetter = true
  · rw [if_pos hpitch] at ha hb
    obtain ⟨octave, rfl⟩ := ha
    obtain ⟨octave', rfl⟩ := hb
    obtain ⟨position, before, hposition, hbefore, hnear⟩ := hna hpitch
    obtain ⟨position', before', hposition', hbefore', hnear'⟩ := hnb hpitch
    obtain rfl := Option.some.inj (hbefore.symm.trans hbefore')
    obtain ⟨letter, hletter, hposition⟩ := Option.bind_eq_some_iff.1 hposition
    obtain ⟨letter', hletter', hposition'⟩ := Option.bind_eq_some_iff.1 hposition'
    obtain rfl := Option.some.inj (hletter.symm.trans hletter')
    simp only [Option.map_some, Option.some.injEq] at hposition hposition' hnear hnear'
    obtain rfl : octave = octave' := by omega
    rfl
  · rw [if_neg hpitch] at ha hb
    rw [ha, hb]

/-- There is one choice of octaves at most that puts every pitch near the one before it. -/
theorem Table.Nearest.unique {t a b : Table} (ha : List.Forall₂ Row.VoicedAs t a)
    (hb : List.Forall₂ Row.VoicedAs t b) (hna : a.Nearest) (hnb : b.Nearest) : a = b := by
  have hrestarts : ∀ place, a.restartsAt place = b.restartsAt place := by
    intro place
    rw [← a.restartsAt_untoned, ← b.restartsAt_untoned, map_untoned_of_voicedAs ha,
      map_untoned_of_voicedAs hb]
  have hlength : a.length = b.length := ha.length_eq.symm.trans hb.length_eq
  -- the choices agree place by place, from the front on
  have htake : ∀ n, a.take n = b.take n := by
    intro n
    induction n with
    | zero => rfl
    | succ n ih =>
        by_cases hn : n < a.length
        · have hnb' : n < b.length := hlength ▸ hn
          have hnt : n < t.length := ha.length_eq ▸ hn
          have hra := List.getElem?_eq_getElem hn
          have hrb := List.getElem?_eq_getElem hnb'
          have hsame : a[n] = b[n] := by
            refine (ha.get hnt hn).unique (hb.get hnt hnb') (hna n a[n] hra) ?_
            rw [Table.positionBefore?_congr ih hrestarts]
            exact hnb n b[n] hrb
          rw [List.take_add_one, List.take_add_one, ih, hra, hrb, hsame]
        · have hle : a.length ≤ n := Nat.le_of_not_lt hn
          rw [List.take_of_length_le hle, List.take_of_length_le (hlength ▸ hle)] at ih
          rw [ih]
  have hall := htake a.length
  rwa [List.take_length, hlength, List.take_length] at hall

-- ============================================================= tables

/-- Voicing is the one choice of nearest pitches. On a table whose pitch rows name letters that
exist, voicing succeeds; and among all choices of octaves for these rows, its own is the one, and the
only one, that puts every pitch at most three letters from the one before it, explicit shifts
apart. -/
theorem Table.voiced_iff_nearest {t : Table}
    (h : ∀ r ∈ t, r.source = .pitch → ∀ name ∈ r.letter, ∃ letter : Letter, name = letter.name) :
    ∃ out, t.voiced = .ok out
      ∧ ∀ out' : Table, (List.Forall₂ Row.VoicedAs t out' ∧ out'.Nearest) ↔ out' = out := by
  obtain ⟨out, hout⟩ : ∃ out, t.voiced = .ok out := exists_resolve h
  have hvoiced := resolve_voicedAs hout
  have hnearest : out.Nearest := by
    have hsame : out.opensWithHold = t.opensWithHold := by
      rw [← out.opensWithHold_untoned, map_untoned_of_voicedAs hvoiced, t.opensWithHold_untoned]
    have hout' : Voicing.resolve out.opensWithHold none .middleC t = .ok out := hsame ▸ hout
    intro place r hr
    exact resolve_near (List.nil_append out).symm hout' (fun _ => rfl) place r (Nat.zero_le place) hr
  refine ⟨out, hout, fun out' => ⟨fun h' => ?_, ?_⟩⟩
  · exact Table.Nearest.unique h'.1 hvoiced h'.2 hnearest
  · rintro rfl
    exact ⟨hvoiced, hnearest⟩

/-- Two blocks that cross, the second of which goes on with a held note, and a heading between. -/
def crossingTable : Table :=
  [{ source := .lyric, block := 1, kind := .attack },
   { source := .pitch, block := 1, kind := .pitch, letter := some "g", shift := 1 },
   { source := .lyric, block := 2, kind := .tie },
   { source := .header, block := 0, kind := .heading, raw := "L" },
   { source := .pitch, block := 2, kind := .pitch, letter := some "c" },
   { source := .pitch, block := 1, kind := .pitch, letter := some "b" },
   { source := .pitch, block := 1, kind := .barline },
   { source := .pitch, block := 1, kind := .pitch, letter := some "f", shift := -2 }]

theorem Table.voiced_iff_nearest_crossingTable :
    (∀ r ∈ crossingTable, r.source = .pitch → ∀ name ∈ r.letter,
        ∃ letter : Letter, name = letter.name)
      ∧ ∃ out, crossingTable.voiced = .ok out
        ∧ ∀ out' : Table, (List.Forall₂ Row.VoicedAs crossingTable out' ∧ out'.Nearest)
          ↔ out' = out := by
  have hletters : ∀ r ∈ crossingTable, r.source = .pitch → ∀ name ∈ r.letter,
      ∃ letter : Letter, name = letter.name := by
    intro r hr hsource name hname
    have hall : ∀ r ∈ crossingTable, r.letter.all fun name => (Letter.ofName? name).isSome := by
      decide
    have hknown := hall r hr
    rw [hname] at hknown
    obtain ⟨letter, hletter⟩ := Option.isSome_iff_exists.1 hknown
    exact ⟨letter, letter_of_ofName? hletter⟩
  exact ⟨hletters, Table.voiced_iff_nearest hletters⟩

end LyricScore
