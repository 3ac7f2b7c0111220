/-
Underlay: pitches for the lyric rows. The attacks of a block sing its pitches in order, the k-th
attack the k-th pitch; an attack beyond the last pitch stays silent. A hold goes on with the
pitch that sounds. A rest or a silent attack ends it, and so does a new block, unless the block
goes on with a held note: then the last attack sounds on.
-/
import LyricScore.Table.Group
import LyricScore.Warning

namespace LyricScore

/-- A pitch with its octave. -/
structure Tone where
  letter : String
  accidental : Accidental
  octave : Int
  deriving DecidableEq

/-- A row that sings a tone. -/
def Row.withTone (r : Row) (tone : Tone) : Row :=
  { r with
    letter := some tone.letter
    accidental := some tone.accidental
    octave := some tone.octave }

/-- The tone that a pitch row offers. -/
def Row.offeredTone? (r : Row) : Option Tone :=
  if r.source = .pitch ∧ r.kind = .pitch then
    match r.letter, r.octave with
    | some letter, some octave => some ⟨letter, r.accidental.getD .plain, octave⟩
    | _, _ => none
  else none

/-- The tones that a block offers, in order. -/
def Table.tones (t : Table) (block : Int) : List Tone :=
  t.filterMap fun r => if r.block = block then r.offeredTone? else none

/-- What became of a row. -/
inductive Fate where
  /-- An attack that sings a tone. -/
  | sung
  /-- An attack without a tone. -/
  | silent
  /-- A hold of a sounding tone. -/
  | held
  /-- A hold of nothing. -/
  | unheld
  /-- A row that neither attacks nor holds. -/
  | other
  deriving DecidableEq

namespace Underlay

/-- What is known between two rows: the sounding tone, the tone of the last attack, the block,
and the blocks of the attacks so far. -/
structure State where
  sounding : Option Tone := none
  lastAttack : Option Tone := none
  block : Option Int := none
  attacks : List Int := []

/-- The state at a lyric row that may be the first one of its block. -/
def State.enter (continues : Int → Bool) (s : State) (r : Row) : State :=
  if s.block = some r.block then s
  else
    { s with
      block := some r.block
      sounding := if continues r.block then s.lastAttack else none }

/-- One lyric row: the state behind it, the row and its fate. -/
def step (tones : Int → List Tone) (s : State) (r : Row) : State × Row × Fate :=
  if r.isAttack then
    let tone := (tones r.block)[s.attacks.count r.block]?
    let next :=
      { s with sounding := tone, lastAttack := tone, attacks := r.block :: s.attacks }
    match tone with
    | some tone => (next, r.withTone tone, .sung)
    | none => (next, r, .silent)
  else if r.isHold then
    match s.sounding with
    | some tone => (s, r.withTone tone, .held)
    | none => (s, r, .unheld)
  else if r.kind = .rest then ({ s with sounding := none }, r, .other)
  else (s, r, .other)

/-- The rows behind a state, each with its fate. -/
def run (continues : Int → Bool) (tones : Int → List Tone) (s : State) :
    List Row → List (Row × Fate)
  | [] => []
  | r :: rest =>
    if r.source = .lyric then
      let out := step tones (s.enter continues r) r
      out.2 :: run continues tones out.1 rest
    else (r, .other) :: run continues tones s rest

end Underlay

/-- The rows of a table with their pitches, and what became of each. -/
def Table.underlaid (t : Table) : List (Row × Fate) :=
  Underlay.run t.opensWithHold t.tones {} t

/-- The blocks that offer tones. -/
def Table.offeringBlocks (t : Table) : List Int :=
  distinct ((t.filter fun r => r.offeredTone?.isSome).map (·.block))

/-- How many tones of a block no attack sings. -/
def Table.unusedTones (t : Table) (block : Int) : Nat :=
  (t.tones block).length - (t.filter fun r => r.isAttack && r.block == block).length

/-- The warnings of the underlay: silent attacks in order, then unused pitches by block. -/
def Table.underlayWarnings (t : Table) : List Warning :=
  (t.underlaid.filterMap fun p =>
      if p.2 = .silent then some (.noPitchLeft p.1.block p.1.measure p.1.raw) else none)
    ++ t.offeringBlocks.filterMap fun block =>
      if t.unusedTones block = 0 then none else some (.unusedPitches block (t.unusedTones block))

end LyricScore
