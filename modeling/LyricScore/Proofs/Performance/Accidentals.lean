/-
What a note is altered by. The performance carries the marks of the measure along and forgets them
at a barline or with a new key. Here the same is said of all that was played before a note, without
any state: a note has its own accidental, or else the latest one that its letter had in its octave
since the last barline or change of key, or else what the latest key does to its letter.

# Keys

A key is found by its tonic on the line of fifths, on which each tonic lies a fifth above the one
before it: F C G D A E B with flats, then without, then with sharps. The key of n sharps is n places
behind C and sharpens the first n letters of one order; the key of n flats is n places before C and
flattens the first n letters of the reverse.

# The run

`Alterations.Recalls` says what the alterations in force have to do with the acts before. One act
keeps it, so it holds behind any acts, and the answer to a note is read off it.
-/
import LyricScore.Performance.Accidentals
import LyricScore.Proofs.Sequence
import Mathlib.Data.List.Induction

namespace LyricScore

-- ============================================================== keys

/-- The tonics of the major keys, each a fifth above the one before it. -/
def lineOfFifths : List String :=
  ["b", "", "#"].flatMap fun sign => ["F", "C", "G", "D", "A", "E", "B"].map (· ++ sign)

/-- The major key whose tonic lies so many fifths above C. -/
def majorKeyAt? (fifths : Int) : Option String :=
  (lineOfFifths[(8 + fifths).toNat]?).map (· ++ " major")

/-- The letters in the order in which keys sharpen them. -/
def orderOfSharps : List String := ["f", "c", "g", "d", "a", "e", "b"]

/-- The letters in the order in which keys flatten them. -/
def orderOfFlats : List String := ["b", "e", "a", "d", "g", "c", "f"]

/-- The named key lies `n` fifths from C in a direction, and the letter is among the first `n` of
an order. -/
def KeyAlters (direction : Int) (order : List String) (name letter : String) : Prop :=
  ∃ n ≤ 7, majorKeyAt? (direction * (n : Nat)) = some name ∧ letter ∈ order.take n

instance (direction : Int) (order : List String) (name letter : String) :
    Decidable (KeyAlters direction order name letter) :=
  inferInstanceAs (Decidable (∃ n ≤ 7, _ ∧ _))

/-- What a key does to a letter: a key of sharps raises, a key of flats lowers, and all else stays
as it is. -/
def keyAlteration (name letter : String) : Int :=
  if KeyAlters 1 orderOfSharps name letter then 1
  else if KeyAlters (-1) orderOfFlats name letter then -1
  else 0

/-- Keys stand on the line of fifths where their signatures say. -/
theorem majorKeyAt?_eq_some_iff :
    ∀ key ∈ MajorKey.all, ∀ direction ∈ ([1, -1] : List Int), ∀ n ≤ 7,
      majorKeyAt? (direction * (n : Nat)) = some key.name ↔ direction * key.fifths = n := by
  decide

/-- Up to seven fifths around C every key has a signature. -/
theorem exists_majorKeyAt? :
    ∀ direction ∈ ([1, -1] : List Int), ∀ n ≤ 7,
      ∃ key ∈ MajorKey.all, majorKeyAt? (direction * (n : Nat)) = some key.name := by
  decide

theorem keyAlters_name_iff {key : MajorKey} (hkey : key ∈ MajorKey.all) {direction : Int}
    (hdirection : direction ∈ ([1, -1] : List Int)) (order : List String) (letter : String) :
    KeyAlters direction order key.name letter
      ↔ letter ∈ order.take (direction * key.fifths).toNat := by
  constructor
  · rintro ⟨n, hn, hname, hletter⟩
    rw [(majorKeyAt?_eq_some_iff key hkey direction hdirection n hn).1 hname]
    exact hletter
  · intro hletter
    have hbound : ∀ key ∈ MajorKey.all, ∀ direction ∈ ([1, -1] : List Int),
        (direction * key.fifths).toNat ≤ 7 := by decide
    have hn := hbound key hkey direction hdirection
    refine ⟨_, hn, ?_, hletter⟩
    apply (majorKeyAt?_eq_some_iff key hkey direction hdirection _ hn).2
    -- a key on the other side of C alters nothing in this direction
    by_cases hside : direction * key.fifths < 0
    · rw [Int.toNat_of_nonpos (by omega)] at hletter
      exact absurd hletter List.not_mem_nil
    · omega

/-- The value of a letter among letters that all have one value. -/
theorem lookup_map_const (letters : List Letter) (value : Int) (letter : String) :
    (letters.map fun l => (l.name, value)).lookup letter
      = if letter ∈ letters.map Letter.name then some value else none := by
  induction letters with
  | nil => rfl
  | cons l letters ih =>
      rw [List.map_cons, List.lookup_cons, ih, List.map_cons]
      by_cases hl : letter = l.name
      · simp [hl]
      · rw [beq_eq_false_iff_ne.2 hl]
        simp [hl]

theorem lookup_alterations {key : MajorKey} (hkey : key ∈ MajorKey.all) (letter : String) :
    (key.alterations.lookup letter).getD 0 = keyAlteration key.name letter := by
  have hsharps : (MajorKey.sharpOrder.take key.fifths.toNat).map Letter.name
      = orderOfSharps.take (1 * key.fifths).toNat := by
    rw [List.map_take, Int.one_mul]
    rfl
  have hflats : (MajorKey.flatOrder.take (-key.fifths).toNat).map Letter.name
      = orderOfFlats.take (-1 * key.fifths).toNat := by
    rw [List.map_take, Int.neg_one_mul]
    rfl
  unfold MajorKey.alterations keyAlteration
  rw [List.lookup_append, lookup_map_const, lookup_map_const, hsharps, hflats]
  simp only [@keyAlters_name_iff key hkey 1 (by decide), @keyAlters_name_iff key hkey (-1) (by decide)]
  split
  · rfl
  · split <;> rfl

/-- The named key alters letters as its place on the line of fifths says, and an unknown key alters
none. -/
theorem lookup_keyAlterations (name letter : String) :
    ((keyAlterations name).lookup letter).getD 0 = keyAlteration name letter := by
  unfold keyAlterations
  cases hfind : MajorKey.all.find? (·.name == name) with
  | some key =>
      have hname : key.name = name := by simpa using List.find?_some hfind
      rw [← hname]
      exact lookup_alterations (List.mem_of_find?_eq_some hfind) letter
  | none =>
      have hunknown : ∀ direction ∈ ([1, -1] : List Int), ∀ order,
          ¬ KeyAlters direction order name letter := by
        rintro direction hdirection order ⟨n, hn, hname, -⟩
        obtain ⟨key, hkey, hat⟩ := exists_majorKeyAt? direction hdirection n hn
        have hne := List.find?_eq_none.1 hfind key hkey
        rw [hat] at hname
        exact hne (by simpa using Option.some.inj hname)
      unfold keyAlteration
      rw [if_neg (hunknown 1 (by decide) _), if_neg (hunknown (-1) (by decide) _)]
      rfl

/-- No key raises one letter and lowers another. -/
theorem not_keyAlters_both (name letter letter' : String) :
    ¬ (KeyAlters 1 orderOfSharps name letter ∧ KeyAlters (-1) orderOfFlats name letter') := by
  rintro ⟨⟨n, hn, hname, hletter⟩, ⟨m, hm, hname', hletter'⟩⟩
  obtain ⟨key, hkey, hat⟩ := exists_majorKeyAt? 1 (by decide) n hn
  obtain rfl : key.name = name := Option.some.inj (hat.symm.trans hname)
  have hsharp := (majorKeyAt?_eq_some_iff key hkey 1 (by decide) n hn).1 hname
  have hflat := (majorKeyAt?_eq_some_iff key hkey (-1) (by decide) m hm).1 hname'
  have hzero : n = 0 := by omega
  rw [hzero] at hletter
  exact List.not_mem_nil hletter

-- ============================================================== acts

/-- What happens to the alterations in force. -/
inductive Act where
  /-- A note on a letter in an octave, which may have an accidental. -/
  | note (letter : String) (octave : Int) (accidental : Option Accidental)
  | barline
  /-- A new key. -/
  | key (name : String)

namespace Act

/-- Whether an act is a note. Barlines and keys make an end of the marks before them. -/
def isNote : Act → Bool
  | .note _ _ _ => true
  | _ => false

/-- The key that an act sets. -/
def key? : Act → Option String
  | .key name => some name
  | _ => none

/-- The accidental that is written, if there is one. -/
def explicit? (accidental : Option Accidental) : Option Accidental :=
  accidental.filter fun a => decide (a ≠ .plain)

/-- The accidental that an act writes for a letter in an octave. -/
def mark? (letter : String) (octave : Int) : Act → Option Accidental
  | .note l o accidental => if l = letter ∧ o = octave then explicit? accidental else none
  | _ => none

/-- The latest accidental of a letter in an octave since the last barline or key. -/
def latestMark? (before : List Act) (letter : String) (octave : Int) : Option Accidental :=
  (before.reverse.takeWhile isNote).findSome? (mark? letter octave)

/-- The latest key; before any comes, the one that opens. -/
def latestKey (opening : String) (before : List Act) : String :=
  (before.reverse.findSome? key?).getD opening

/-- How far a note is altered behind some acts: by its own accidental, or else by the latest one of
its letter and octave, or else by the latest key. -/
def altered (opening : String) (before : List Act) (letter : String) (octave : Int)
    (accidental : Option Accidental) : Int :=
  match explicit? accidental, latestMark? before letter octave with
  | some own, _ => own.semitones
  | none, some earlier => earlier.semitones
  | none, none => keyAlteration (latestKey opening before) letter

theorem latestMark?_concat_note (before : List Act) (l : String) (o : Int)
    (accidental : Option Accidental) (letter : String) (octave : Int) :
    latestMark? (before ++ [.note l o accidental]) letter octave
      = (mark? letter octave (.note l o accidental)).or (latestMark? before letter octave) := by
  unfold latestMark?
  rw [List.reverse_concat, List.takeWhile_cons_of_pos rfl, List.findSome?_cons]
  cases mark? letter octave (.note l o accidental) <;> rfl

theorem latestMark?_concat_of_not {act : Act} (h : act.isNote = false) (before : List Act)
    (letter : String) (octave : Int) : latestMark? (before ++ [act]) letter octave = none := by
  unfold latestMark?
  rw [List.reverse_concat, List.takeWhile_cons_of_neg (by simp [h])]
  rfl

theorem latestKey_concat (opening : String) (before : List Act) (act : Act) :
    latestKey opening (before ++ [act]) = act.key?.getD (latestKey opening before) := by
  unfold latestKey
  rw [List.reverse_concat, List.findSome?_cons]
  cases act.key? <;> rfl

end Act

-- =============================================================== run

namespace Alterations

/-- The alterations behind an act. -/
def act (a : Alterations) : Act → Alterations
  | .note letter octave accidental => a.mark letter octave accidental
  | .barline => a.barline
  | .key name => .ofKey name

/-- What an act asks for: how far its note is altered. -/
def answer (a : Alterations) : Act → Option Int
  | .note letter octave accidental => some ((a.mark letter octave accidental).get letter octave)
  | _ => none

/-- The answers to acts, one behind the other. -/
def answers (a : Alterations) : List Act → List (Option Int)
  | [] => []
  | first :: rest => a.answer first :: (a.act first).answers rest

theorem answers_append (a : Alterations) (before behind : List Act) :
    a.answers (before ++ behind) = a.answers before ++ (before.foldl act a).answers behind := by
  induction before generalizing a with
  | nil => rfl
  | cons first rest ih => exact congrArg (a.answer first :: ·) (ih (a.act first))

theorem length_answers (a : Alterations) (acts : List Act) :
    (a.answers acts).length = acts.length := by
  induction acts generalizing a with
  | nil => rfl
  | cons first rest ih => exact congrArg (· + 1) (ih (a.act first))

/-- What the alterations in force have to do with the acts before: they have the latest mark of
every letter in every octave, and the latest key. -/
structure Recalls (opening : String) (before : List Act) (a : Alterations) : Prop where
  marks : ∀ letter octave,
    a.marks.lookup (letter, octave) = (Act.latestMark? before letter octave).map Accidental.semitones
  key : a.key = keyAlterations (Act.latestKey opening before)

/-- A note sets the mark of its letter and octave if it has an accidental, and no other. -/
theorem lookup_marks_mark (a : Alterations) (letter : String) (octave : Int)
    (accidental : Option Accidental) (l : String) (o : Int) :
    (a.mark letter octave accidental).marks.lookup (l, o)
      = (((Act.note letter octave accidental).mark? l o).map Accidental.semitones).or
          (a.marks.lookup (l, o)) := by
  have hset : ∀ own : Accidental,
      (((letter, octave), own.semitones)
          :: a.marks.filter fun m => decide (m.1 ≠ (letter, octave))).lookup (l, o)
        = ((if letter = l ∧ octave = o then some own else none).map Accidental.semitones).or
            (a.marks.lookup (l, o)) := by
    intro own
    rw [List.lookup_cons]
    by_cases hsame : letter = l ∧ octave = o
    · rw [if_pos hsame, hsame.1, hsame.2, beq_self_eq_true]
      rfl
    · have hne : (l, o) ≠ (letter, octave) := by
        intro heq
        exact hsame ⟨(Prod.mk.inj heq).1.symm, (Prod.mk.inj heq).2.symm⟩
      rw [if_neg hsame, beq_eq_false_iff_ne.2 hne, lookup_filter fun _ => decide_eq_true hne]
      rfl
  have hnone : ∀ accidental, Act.explicit? accidental = none →
      (Act.note letter octave accidental).mark? l o = none := by
    intro accidental h
    show (if letter = l ∧ octave = o then Act.explicit? accidental else none) = none
    rw [h, ite_self]
  cases accidental with
  | none => rw [hnone none rfl]; rfl
  | some own =>
      cases own
      case plain => rw [hnone (some .plain) rfl]; rfl
      all_goals exact hset _

namespace Recalls

variable {opening : String} {before : List Act} {a : Alterations}

theorem ofKey (opening : String) : Recalls opening [] (.ofKey opening) :=
  ⟨fun _ _ => rfl, rfl⟩

/-- One act. -/
theorem act (h : Recalls opening before a) (next : Act) :
    Recalls opening (before ++ [next]) (a.act next) := by
  constructor
  · intro letter octave
    cases next with
    | note l o accidental =>
        show (a.mark l o accidental).marks.lookup _ = _
        rw [lookup_marks_mark, h.marks, Act.latestMark?_concat_note, Option.map_or]
    | barline =>
        rw [Act.latestMark?_concat_of_not rfl]
        rfl
    | key name =>
        rw [Act.latestMark?_concat_of_not rfl]
        rfl
  · rw [Act.latestKey_concat]
    cases next with
    | note l o accidental =>
        have hkey : (a.mark l o accidental).key = a.key := by
          unfold mark
          split <;> rfl
        exact hkey.trans h.key
    | barline => exact h.key
    | key name => rfl

/-- Any acts. -/
theorem foldl (opening : String) (acts : List Act) :
    Recalls opening acts (acts.foldl Alterations.act (.ofKey opening)) := by
  induction acts using List.reverseRecOn with
  | nil => exact ofKey opening
  | append_singleton acts next ih =>
      rw [List.foldl_append]
      exact ih.act next

/-- The answer to a note. -/
theorem get_mark (h : Recalls opening before a) (letter : String) (octave : Int)
    (accidental : Option Accidental) :
    (a.mark letter octave accidental).get letter octave
      = Act.altered opening before letter octave accidental := by
  have hnext := h.act (.note letter octave accidental)
  have hmarks : (a.mark letter octave accidental).marks.lookup (letter, octave)
      = ((Act.explicit? accidental).or (Act.latestMark? before letter octave)).map
          Accidental.semitones := by
    have hlatest := hnext.marks letter octave
    have hown : Act.mark? letter octave (.note letter octave accidental) = Act.explicit? accidental :=
      if_pos ⟨rfl, rfl⟩
    rwa [Act.latestMark?_concat_note, hown] at hlatest
  have hkey : (a.mark letter octave accidental).key
      = keyAlterations (Act.latestKey opening before) := by
    have hlatest := hnext.key
    rwa [Act.latestKey_concat] at hlatest
  unfold get Act.altered
  rw [hmarks, hkey, lookup_keyAlterations]
  cases Act.explicit? accidental with
  | some own => rfl
  | none => cases Act.latestMark? before letter octave <;> rfl

end Recalls

/-- The answer to each note of a run. From any key on and behind any acts it is the note's own
accidental, or else the latest one of its letter and octave since the last barline or key, a natural
among them, or else what the latest key does to the letter; and no key both raises and lowers. -/
theorem getElem?_answers_eq_altered (opening : String) (before behind : List Act) (letter : String)
    (octave : Int) (accidental : Option Accidental) :
    ((ofKey opening).answers (before ++ .note letter octave accidental :: behind))[before.length]?
        = some (some (Act.altered opening before letter octave accidental))
      ∧ ∀ name, ¬ (KeyAlters 1 orderOfSharps name letter ∧ KeyAlters (-1) orderOfFlats name letter) := by
  constructor
  · have hrun := Recalls.foldl opening before
    rw [answers_append, List.getElem?_append_right (Nat.le_of_eq (length_answers _ _)),
      length_answers, Nat.sub_self]
    exact congrArg (fun answer => some (some answer)) (hrun.get_mark letter octave accidental)
  · exact fun name => not_keyAlters_both name letter letter

/-- In F major a natural holds for its octave only, and to the barline only; a new key takes it away
as well, and a key that is none alters nothing. -/
example : (ofKey "F major").answers
    [.note "b" 4 none, .note "b" 4 (some .natural), .note "b" 4 (some .plain), .note "b" 5 none,
      .barline, .note "b" 4 none, .note "f" 4 (some .doubleSharp), .key "G major",
      .note "f" 4 none, .key "H major", .note "f" 4 none]
    = [some (-1), some 0, some 0, some (-1), none, some (-1), some 2, none, some 1, none, some 0] := by
  decide

end Alterations

end LyricScore
