/-
Hearing a tune. The tokens of a tune give what is heard one after the other: notes and rests with
their times, and barlines and fields in their places. Times are in quarter notes from the start.
A tuplet scales as many notes and rests as it counts; a unit field changes the length of what
follows.

# Ties

A tied note goes on with the note directly before it, so it is no note of its own: `fuse` adds
its time to that note. Barlines and fields may stand between the two, a rest may not; a tied note
that has no note before it is left as it is.

# Sounding pitches

`perform` gives the notes that are left their pitches. An accidental holds for its letter and
octave up to the next barline; without one the key decides. The key is known from its tonic: each
fifth above C adds a sharp in the order F, C, G, D, A, E, B, and each one below adds a flat in the
reverse order.
-/
import LyricScore.Performance.Event
import LyricScore.Proofs.Tune.Token

namespace LyricScore

open Text

-- =========================================================== hearing

/-- What is heard at a place of a tune. -/
inductive Sound where
  | note (tied : Bool) (accidental : Accidental) (letter : Letter) (octave : Int)
  | rest
  | bar
  | field (name : Char) (value : List Char)
  deriving DecidableEq

/-- A sound with its start and its length. -/
structure Heard where
  start : Rat
  length : Rat
  sound : Sound
  deriving DecidableEq

/-- What is known between two tokens: the unit, the time, the factors for the notes of a tuplet
that are still to come, and whether a tie was written. -/
structure Pulse where
  unit : Rat
  time : Rat := 0
  factors : List Rat := []
  tied : Bool := false

namespace Pulse

/-- How long a written length lasts, in quarter notes. -/
def lasting (p : Pulse) (length : Rat) : Rat :=
  length * p.factors.headD 1 * p.unit * 4

/-- The pulse behind a note or a rest. -/
def pass (p : Pulse) (length : Rat) : Pulse :=
  { p with time := p.time + p.lasting length, factors := p.factors.tail, tied := false }

/-- The pulse behind a token. -/
def step (p : Pulse) : Token → Pulse
  | .bar => p
  | .field name value => if name = 'L' then { p with unit := (Lexer.length value).1 } else p
  | .tie => { p with tied := true }
  | .tuplet count time => { p with factors := .replicate count ((time : Rat) / (count : Rat)) }
  | .note _ _ _ length => p.pass length
  | .rest length => p.pass length

/-- What is heard of a token. -/
def sounds (p : Pulse) : Token → List Heard
  | .bar => [⟨p.time, 0, .bar⟩]
  | .field name value => [⟨p.time, 0, .field name value⟩]
  | .tie | .tuplet _ _ => []
  | .note accidental letter octave length =>
    [⟨p.time, p.lasting length, .note p.tied accidental letter octave⟩]
  | .rest length => [⟨p.time, p.lasting length, .rest⟩]

/-- The pulse behind some tokens. -/
def after (p : Pulse) (ts : List Token) : Pulse :=
  ts.foldl step p

end Pulse

/-- What is heard of some tokens, from a pulse on. -/
def hear (p : Pulse) : List Token → List Heard
  | [] => []
  | t :: rest => p.sounds t ++ hear (p.step t) rest

/-- The time of the tied notes that go on with the note in front of a list. -/
def heldFor : List Heard → Rat
  | [] => 0
  | h :: rest =>
    match h.sound with
    | .note true _ _ _ => h.length + heldFor rest
    | .note false _ _ _ | .rest => 0
    | .bar | .field _ _ => heldFor rest

/-- What is heard with every tied note made part of the note before it; `sounding` tells whether
there is one. -/
def fuse (sounding : Bool) : List Heard → List Heard
  | [] => []
  | h :: rest =>
    match h.sound with
    | .note tied _ _ _ =>
      if tied && sounding then fuse true rest
      else { h with length := h.length + heldFor rest } :: fuse true rest
    | .rest => h :: fuse false rest
    | .bar | .field _ _ => h :: fuse sounding rest

-- ======================================================== performing

/-- How many fifths a letter lies above C. -/
def Letter.fifths : Letter → Int
  | .f => -1
  | .c => 0
  | .g => 1
  | .d => 2
  | .a => 3
  | .e => 4
  | .b => 5

/-- The number of a sounding key. Middle C, in octave 4, is 60; a fifth is seven semitones and an
octave twelve. -/
def soundingKey (letter : Letter) (octave alteration : Int) : Int :=
  60 + 12 * (octave - 4) + 7 * letter.fifths % 12 + alteration

theorem soundingKey_eq (letter : Letter) (octave alteration : Int) :
    soundingKey letter octave alteration = keyNumber letter octave alteration := by
  unfold soundingKey keyNumber
  cases letter <;> simp only [Letter.fifths, Letter.semitones] <;> omega

/-- How many fifths the tonic of a key lies above C. -/
def keyFifths : List Char → Int
  | [] => 0
  | c :: rest =>
    (match Lexer.letter? c with
      | some (letter, _) => letter.fifths
      | none => 0)
      + (match rest with
        | '#' :: _ => 7
        | 'b' :: _ => -7
        | _ => 0)

/-- How far the key that lies so many fifths above C alters a letter. -/
def fifthsAlteration (fifths : Int) (letter : Letter) : Int :=
  (fifths - letter.fifths + 5) / 7

/-- The alterations that a listener keeps in mind: the key's, and those of the measure. -/
structure Ear where
  fifths : Int
  marks : Letter → Int → Option Int

namespace Ear

/-- The ear at the start of a key. -/
def ofKey (key : List Char) : Ear :=
  ⟨keyFifths key, fun _ _ => none⟩

/-- The ear behind a barline. -/
def barline (e : Ear) : Ear :=
  { e with marks := fun _ _ => none }

/-- The ear behind a note. -/
def mark (e : Ear) (letter : Letter) (octave : Int) : Accidental → Ear
  | .plain => e
  | accidental =>
    { e with
      marks := fun l o => if l = letter ∧ o = octave then some accidental.semitones else e.marks l o }

/-- How far a letter in an octave is altered. -/
def alteration (e : Ear) (letter : Letter) (octave : Int) : Int :=
  (e.marks letter octave).getD (fifthsAlteration e.fifths letter)

end Ear

/-- The notes of what is heard. A tied note without a note before it has no meaning. -/
def perform (e : Ear) : List Heard → Option (List NoteEvent)
  | [] => some []
  | h :: rest =>
    match h.sound with
    | .note true _ _ _ => none
    | .note false accidental letter octave =>
      let e := e.mark letter octave accidental
      (perform e rest).map
        (⟨soundingKey letter octave (e.alteration letter octave), h.start, h.length⟩ :: ·)
    | .rest => perform e rest
    | .bar => perform e.barline rest
    | .field name value => perform (if name = 'K' then .ofKey value else e) rest

-- ============================================================ tables

/-- What a row writes into the tune. -/
def Row.written (r : Row) : List String :=
  [r.directive, r.finalText.getD ""]

namespace Table

/-- The tokens that the lyric rows of a table write. -/
def tokens? (t : Table) : Option (List Token) :=
  (((t.filter fun r => decide (r.source = .lyric)).flatMap Row.written).mapM
    fun text => tokens text.toList).map List.flatten

/-- The pulse that the heading of a table gives. -/
def pulse (t : Table) : Pulse :=
  { unit := (Lexer.length ((t.field? "L").getD "").toList).1 }

/-- What is heard of a table, with its ties fused. -/
def heard? (t : Table) : Option (List Heard) :=
  t.tokens?.map fun ts => fuse false (hear t.pulse ts)

/-- The notes that are heard of a table. -/
def performed? (t : Table) : Option (List NoteEvent) :=
  t.heard?.bind (perform (.ofKey ((t.field? "K").getD "").toList))

end Table

-- ============================================================== laws

theorem hear_append (p : Pulse) (ts us : List Token) :
    hear p (ts ++ us) = hear p ts ++ hear (p.after ts) us := by
  induction ts generalizing p with
  | nil => rfl
  | cons t ts ih =>
      show p.sounds t ++ hear (p.step t) (ts ++ us) = _
      rw [ih (p.step t), ← List.append_assoc]
      rfl

theorem Pulse.after_append (p : Pulse) (ts us : List Token) :
    p.after (ts ++ us) = (p.after ts).after us :=
  List.foldl_append

/-- Two stretches of what is heard that no listener can tell apart once ties are fused. -/
def Alike (xs ys : List Heard) : Prop :=
  (∀ sounding rest, fuse sounding (xs ++ rest) = fuse sounding (ys ++ rest))
    ∧ ∀ rest, heldFor (xs ++ rest) = heldFor (ys ++ rest)

namespace Alike

theorem refl (xs : List Heard) : Alike xs xs :=
  ⟨fun _ _ => rfl, fun _ => rfl⟩

theorem trans {xs ys zs : List Heard} (h : Alike xs ys) (h' : Alike ys zs) : Alike xs zs :=
  ⟨fun sounding rest => (h.1 sounding rest).trans (h'.1 sounding rest),
    fun rest => (h.2 rest).trans (h'.2 rest)⟩

theorem append_right {xs ys : List Heard} (h : Alike xs ys) (zs : List Heard) :
    Alike (xs ++ zs) (ys ++ zs) := by
  refine ⟨fun sounding rest => ?_, fun rest => ?_⟩
  · rw [List.append_assoc, List.append_assoc]
    exact h.1 sounding (zs ++ rest)
  · rw [List.append_assoc, List.append_assoc]
    exact h.2 (zs ++ rest)

theorem cons (x : Heard) {xs ys : List Heard} (h : Alike xs ys) : Alike (x :: xs) (x :: ys) := by
  obtain ⟨start, length, sound⟩ := x
  refine ⟨fun sounding rest => ?_, fun rest => ?_⟩
  · simp only [List.cons_append, fuse]
    cases sound <;> simp only [h.1, h.2]
  · simp only [List.cons_append, heldFor]
    cases sound with
    | note tied => cases tied <;> simp only [h.2]
    | rest => rfl
    | bar => exact h.2 rest
    | field => exact h.2 rest

theorem append_left (zs : List Heard) {xs ys : List Heard} (h : Alike xs ys) :
    Alike (zs ++ xs) (zs ++ ys) := by
  induction zs with
  | nil => exact h
  | cons z zs ih => exact cons z ih

theorem append {xs ys xs' ys' : List Heard} (h : Alike xs ys) (h' : Alike xs' ys') :
    Alike (xs ++ xs') (ys ++ ys') :=
  (h.append_right xs').trans (append_left ys h')

/-- A note and a tied one directly behind it are one longer note. -/
theorem tied {start start' length length' : Rat} {tied : Bool} {a a' : Accidental}
    {letter letter' : Letter} {octave octave' : Int} :
    Alike [⟨start, length + length', .note tied a letter octave⟩]
      [⟨start, length, .note tied a letter octave⟩,
        ⟨start', length', .note true a' letter' octave'⟩] := by
  refine ⟨fun sounding rest => ?_, fun rest => ?_⟩
  · simp only [List.cons_append, List.nil_append, fuse, heldFor, Bool.and_self, if_true,
      Rat.add_assoc]
  · cases tied
    · rfl
    · simp only [List.cons_append, List.nil_append, heldFor, Rat.add_assoc]

end Alike

end LyricScore
