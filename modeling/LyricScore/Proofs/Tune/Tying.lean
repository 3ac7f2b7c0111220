/-
Ties from note to note. Who reads a tune keeps in mind the pitch of the note just read, and behind a
tie the pitch that the next note must have. Barlines and fields change nothing of that, so a tie may
move over them without being read differently; a rest ends it.
-/
import Mathlib.Data.List.Induction
import LyricScore.Proofs.Tune.Token

namespace LyricScore

-- ============================================================= gaps

/-- Whether a token may stand between a note and the note that it is tied to: a barline or a field
for the key, the unit or the meter. -/
def Token.isGap : Token → Bool
  | .bar => true
  | .field name _ => name == 'K' || name == 'L' || name == 'M'
  | _ => false

/-- The pitch of the note that comes next, behind a gap and the opening of a tuplet, if any. -/
def nextPitch? (ts : List Token) : Option (Letter × Int) :=
  match ts.dropWhile Token.isGap with
  | .note _ letter octave _ :: _ => some (letter, octave)
  | .tuplet _ _ :: .note _ letter octave _ :: _ => some (letter, octave)
  | _ => none

/-- The pitch of the note that came last, before a gap, if any. -/
def lastPitch? (ts : List Token) : Option (Letter × Int) :=
  match ts.reverse.dropWhile Token.isGap with
  | .note _ letter octave _ :: _ => some (letter, octave)
  | _ => none

-- =========================================================== reading

/-- What a reader of a tune has in mind. -/
inductive Tying where
  | silent
  /-- Behind a note. -/
  | sung (pitch : Letter × Int)
  /-- Behind a tie, before the note that it ties. -/
  | tied (pitch : Letter × Int)
  /-- The same, with a tuplet opened. -/
  | opened (pitch : Letter × Int)
  deriving DecidableEq

namespace Tying

/-- What a token makes of it; nothing if a tie goes amiss. -/
def step : Tying → Token → Option Tying
  | .silent, t =>
    match t with
    | .tie => none
    | .note _ letter octave _ => some (.sung (letter, octave))
    | _ => some .silent
  | .sung pitch, t =>
    match t with
    | .tie => some (.tied pitch)
    | .note _ letter octave _ => some (.sung (letter, octave))
    | t => if t.isGap then some (.sung pitch) else some .silent
  | .tied pitch, t =>
    match t with
    | .note _ letter octave _ => if (letter, octave) = pitch then some (.sung pitch) else none
    | .tuplet _ _ => some (.opened pitch)
    | t => if t.isGap then some (.tied pitch) else none
  | .opened pitch, t =>
    match t with
    | .note _ letter octave _ => if (letter, octave) = pitch then some (.sung pitch) else none
    | _ => none

/-- What some tokens make of it. -/
def after (s : Tying) (ts : List Token) : Option Tying :=
  ts.foldlM step s

/-- Between two notes, with no tie open. -/
def Settled : Tying → Prop
  | .silent | .sung _ => True
  | .tied _ | .opened _ => False

/-- All that a step can do. -/
inductive Steps : Tying → Token → Tying → Prop where
  | gap {s : Tying} {t : Token} (hs : ∀ pitch, s ≠ .opened pitch) (ht : t.isGap = true) : Steps s t s
  | tie (pitch : Letter × Int) : Steps (.sung pitch) .tie (.tied pitch)
  | tuplet (pitch : Letter × Int) (count time : Nat) :
      Steps (.tied pitch) (.tuplet count time) (.opened pitch)
  | note {s : Tying} (accidental : Accidental) (pitch : Letter × Int) (length : Rat)
      (hs : ∀ p, s = .tied p ∨ s = .opened p → pitch = p) :
      Steps s (.note accidental pitch.1 pitch.2 length) (.sung pitch)
  | pause {s : Tying} {t : Token} (hs : s.Settled) (htie : t ≠ .tie)
      (hnote : ∀ accidental letter octave length, t ≠ .note accidental letter octave length) :
      Steps s t .silent

variable {s s' : Tying} {t : Token} {ts us : List Token} {pitch : Letter × Int}

@[simp] theorem after_nil (s : Tying) : s.after [] = some s := rfl

theorem after_cons (s : Tying) (t : Token) (ts : List Token) :
    s.after (t :: ts) = (s.step t).bind fun s' => s'.after ts :=
  List.foldlM_cons

theorem after_append (s : Tying) (ts us : List Token) :
    s.after (ts ++ us) = (s.after ts).bind fun s' => s'.after us :=
  List.foldlM_append

theorem after_singleton (s : Tying) (t : Token) : s.after [t] = s.step t := by
  rw [after_cons]
  cases s.step t <;> rfl

theorem steps_of_step (h : s.step t = some s') : Steps s t s' := by
  cases s with
  | silent =>
      cases t with
      | tie => cases h
      | note a letter octave q =>
          obtain rfl := Option.some.inj h
          exact .note a (letter, octave) q (by simp)
      | _ =>
          obtain rfl := Option.some.inj h
          exact .pause trivial (by simp) (by simp)
  | sung pitch =>
      cases t with
      | tie =>
          obtain rfl := Option.some.inj h
          exact .tie pitch
      | note a letter octave q =>
          obtain rfl := Option.some.inj h
          exact .note a (letter, octave) q (by simp)
      | _ =>
          unfold step at h
          dsimp only at h
          split at h
          · next ht =>
            obtain rfl := Option.some.inj h
            exact .gap (by simp) ht
          · obtain rfl := Option.some.inj h
            exact .pause trivial (by simp) (by simp)
  | tied pitch =>
      cases t with
      | tuplet count time =>
          obtain rfl := Option.some.inj h
          exact .tuplet pitch count time
      | note a letter octave q =>
          unfold step at h
          dsimp only at h
          split at h
          · next hpitch =>
            obtain rfl := Option.some.inj h
            rw [← hpitch]
            exact .note a (letter, octave) q (by simp)
          · cases h
      | _ =>
          unfold step at h
          dsimp only at h
          split at h
          · next ht =>
            obtain rfl := Option.some.inj h
            exact .gap (by simp) ht
          · cases h
  | opened pitch =>
      cases t with
      | note a letter octave q =>
          unfold step at h
          dsimp only at h
          split at h
          · next hpitch =>
            obtain rfl := Option.some.inj h
            rw [← hpitch]
            exact .note a (letter, octave) q (by simp)
          · cases h
      | _ => cases h

theorem step_gap (hs : ∀ pitch, s ≠ .opened pitch) (ht : t.isGap = true) : s.step t = some s := by
  cases s with
  | opened pitch => exact absurd rfl (hs pitch)
  | silent =>
      cases t with
      | bar | field => rfl
      | _ => cases ht
  | sung pitch | tied pitch =>
      cases t with
      | bar => rfl
      | field => exact if_pos ht
      | _ => cases ht

/-- A gap changes nothing. -/
theorem after_gap (hs : ∀ pitch, s ≠ .opened pitch) (hts : ∀ t ∈ ts, t.isGap = true) :
    s.after ts = some s := by
  induction ts with
  | nil => rfl
  | cons t ts ih =>
      obtain ⟨ht, hts⟩ := List.forall_mem_cons.1 hts
      rw [after_cons, step_gap hs ht]
      exact ih hts

theorem Settled.ne_opened (h : s.Settled) : ∀ pitch, s ≠ .opened pitch := by
  rintro pitch rfl
  exact h

/-- A tie is read alike before and behind a gap. -/
theorem after_gap_tie (pitch : Letter × Int) {gap : List Token} (h : ∀ t ∈ gap, t.isGap = true)
    (ts : List Token) :
    (sung pitch).after (gap ++ .tie :: ts) = (sung pitch).after (.tie :: (gap ++ ts)) := by
  have hsung : (sung pitch).after gap = some (sung pitch) := after_gap (by simp) h
  have htied : (tied pitch).after gap = some (tied pitch) := after_gap (by simp) h
  rw [after_append, hsung]
  show (tied pitch).after ts = (tied pitch).after (gap ++ ts)
  rw [after_append, htied]
  rfl

/-- Behind a note a tie is read alike before and behind a gap. -/
theorem after_note_tie (s : Tying) (a : Accidental) (letter : Letter) (octave : Int) (q : Rat)
    {gap : List Token} (h : ∀ t ∈ gap, t.isGap = true) (ts : List Token) :
    s.after (.note a letter octave q :: (gap ++ .tie :: ts))
      = s.after (.note a letter octave q :: .tie :: (gap ++ ts)) := by
  rw [after_cons, after_cons]
  cases hstep : s.step (.note a letter octave q) with
  | none => rfl
  | some s' =>
      cases steps_of_step hstep with
      | gap _ ht => cases ht
      | pause _ _ hne => exact absurd rfl (hne a letter octave q)
      | note => exact after_gap_tie _ h ts

/-- Behind a tie that is read comes a note of its pitch. -/
theorem nextPitch?_of_after (h : (tied pitch).after ts = some s) (hs : s.Settled) :
    nextPitch? ts = some pitch := by
  induction ts with
  | nil =>
      obtain rfl := Option.some.inj h
      exact hs.elim
  | cons t ts ih =>
      rw [after_cons] at h
      obtain ⟨s', hstep, h⟩ := Option.bind_eq_some_iff.1 h
      cases steps_of_step hstep with
      | gap _ ht =>
          unfold nextPitch?
          rw [List.dropWhile_cons_of_pos ht]
          exact ih h
      | note a p q hp => exact congrArg some (hp pitch (Or.inl rfl))
      | pause hsettled _ _ => exact hsettled.elim
      | tuplet =>
          -- nothing but the note may follow
          cases ts with
          | nil =>
              obtain rfl := Option.some.inj h
              exact hs.elim
          | cons t ts =>
              rw [after_cons] at h
              obtain ⟨s', hstep, -⟩ := Option.bind_eq_some_iff.1 h
              cases steps_of_step hstep with
              | gap hne _ => exact absurd rfl (hne pitch)
              | note a p q hp => exact congrArg some (hp pitch (Or.inr rfl))
              | pause hsettled _ _ => exact hsettled.elim

/-- What is sung at the end was sung before a gap, or in the last note before one. -/
theorem exists_note_of_after (h : s.after ts = some (.sung pitch)) :
    ((∀ t ∈ ts, t.isGap = true) ∧ s = .sung pitch)
      ∨ ∃ front accidental length gap, ts = front ++ .note accidental pitch.1 pitch.2 length :: gap
        ∧ ∀ t ∈ gap, t.isGap = true := by
  induction ts using List.reverseRecOn with
  | nil => exact Or.inl ⟨fun t ht => absurd ht List.not_mem_nil, Option.some.inj h⟩
  | append_singleton ts t ih =>
      rw [after_append] at h
      obtain ⟨s', hbefore, hstep⟩ := Option.bind_eq_some_iff.1 h
      rw [after_singleton] at hstep
      cases steps_of_step hstep with
      | gap _ ht =>
          rcases ih hbefore with ⟨hall, hs⟩ | ⟨front, a, q, gap, rfl, hall⟩
          · exact Or.inl ⟨List.forall_mem_append.2 ⟨hall, List.forall_mem_singleton.2 ht⟩, hs⟩
          · refine Or.inr ⟨front, a, q, gap ++ [t], ?_,
              List.forall_mem_append.2 ⟨hall, List.forall_mem_singleton.2 ht⟩⟩
            rw [List.append_assoc]
            rfl
      | note a p q _ => exact Or.inr ⟨ts, a, q, [], rfl, fun t ht => absurd ht List.not_mem_nil⟩

/-- What a reader from the start on has sung is the last note. -/
theorem lastPitch?_of_after (h : silent.after ts = some (.sung pitch)) :
    lastPitch? ts = some pitch := by
  rcases exists_note_of_after h with ⟨-, hs⟩ | ⟨front, a, q, gap, rfl, hgap⟩
  · cases hs
  · unfold lastPitch?
    rw [List.reverse_append, List.reverse_cons, List.append_assoc,
      List.dropWhile_append_of_pos fun t ht => hgap t (List.mem_reverse.1 ht)]
    rfl

-- ======================================================= whole notes

/-- Tokens that leave no tie open behind them. -/
def Whole (ts : List Token) : Prop :=
  ∀ s s' : Tying, s.Settled → s.after ts = some s' → s'.Settled

theorem Whole.append (h : Whole ts) (h' : Whole us) : Whole (ts ++ us) := by
  intro s s' hs hafter
  rw [after_append] at hafter
  obtain ⟨s'', hts, hus⟩ := Option.bind_eq_some_iff.1 hafter
  exact h' s'' s' (h s s'' hs hts) hus

theorem Whole.flatMap {α : Type} {f : α → List Token} {l : List α} (h : ∀ a ∈ l, Whole (f a)) :
    Whole (l.flatMap f) := by
  induction l with
  | nil =>
      intro s s' hs hafter
      obtain rfl := Option.some.inj hafter
      exact hs
  | cons a l ih =>
      obtain ⟨ha, hl⟩ := List.forall_mem_cons.1 h
      rw [List.flatMap_cons]
      exact ha.append (ih hl)

theorem Whole.of_gap (h : ∀ t ∈ ts, t.isGap = true) : Whole ts := by
  intro s s' hs hafter
  rw [after_gap hs.ne_opened h] at hafter
  obtain rfl := Option.some.inj hafter
  exact hs

/-- A note or a rest closes what is open. -/
theorem Whole.of_sound (ht : t.isGap = false) (htie : t ≠ .tie)
    (htuplet : ∀ count time, t ≠ .tuplet count time) :
    Whole (ts ++ [t]) := by
  intro s s' _ hafter
  rw [after_append] at hafter
  obtain ⟨s'', -, hstep⟩ := Option.bind_eq_some_iff.1 hafter
  rw [after_singleton] at hstep
  cases steps_of_step hstep with
  | gap _ hgap =>
      rw [ht] at hgap
      cases hgap
  | tie => exact absurd rfl htie
  | tuplet pitch count time => exact absurd rfl (htuplet count time)
  | note => trivial
  | pause => trivial

end Tying

end LyricScore
