/-
Reading scores. Lines that are not blank form chunks, separated by blank lines. A first chunk of
one line is the title; every other chunk is a block of lyric line, pitch line and optional
counter. The first fault met, block by block and within a block in the order lyrics, pitches,
counter, is the one reported, with its line.
-/
import LyricScore.Rhythm.Unit
import LyricScore.Score.Basic

namespace LyricScore

open Text

namespace Reader

/-- The words of a line; a barline is a word of its own wherever it stands. -/
def lineWords (line : List Char) : List (List Char) :=
  words (line.flatMap fun c => if c = '|' then [' ', '|', ' '] else [c])

-- ======================================================== lyric line

/-- Whether a character belongs to a syllable: it is neither a marker nor the point that only
divides segments. -/
def isSyllableChar (c : Char) : Bool :=
  (Marker.ofChar? c).isNone && c != '.'

/-- The pieces of a beat: single markers and the longest runs of syllable characters. -/
def pieces : List Char → List (List Char)
  | [] => []
  | c :: rest =>
    if (Marker.ofChar? c).isSome then [c] :: pieces rest
    else if c = '.' then pieces rest
    else
      match rest with
      | [] => [[c]]
      | next :: _ =>
        if isSyllableChar next then
          match pieces rest with
          | [] => [[c]]
          | piece :: more => (c :: piece) :: more
        else [c] :: pieces rest

/-- The segment that a piece writes. -/
def segmentOf : List Char → Segment
  | [c] =>
    match Marker.ofChar? c with
    | some m => .marker m
    | none => .syllable (String.ofList [c])
  | piece => .syllable (String.ofList piece)

/-- The segments of a beat. -/
def segments (word : List Char) : List Segment :=
  (pieces word).map segmentOf

/-- How many beats a beat lasts; one unless it says so. -/
def duration (digits : List Char) : Except Error Nat :=
  if digits.isEmpty then .ok 1 else natural digits

/-- Read a beat: digits for its duration, then its segments. -/
def beat (line : Option Int) (word : List Char) : Except Error LyricBeat :=
  let content := segments (word.dropWhile isDigit)
  if content.isEmpty then .error (.line .emptyBeat line (String.ofList word))
  else
    match duration (word.takeWhile isDigit) with
    | .error e => .error e
    | .ok 0 => .error (.line .shortBeat line (String.ofList word))
    | .ok (n + 1) => .ok ⟨content, (n + 1 : Nat)⟩

/-- Read one word of a lyric line. -/
def lyricWord (line : Option Int) (word : List Char) : Except Error LyricItem :=
  if word = ['|'] then .ok .barline
  else
    match unitMark? word with
    | some (digits, dotted) => do
      let n ← natural digits
      return .unit ⟨n, dotted⟩
    | none =>
      if word.head? = some '[' then .error (.line .malformedUnit line (String.ofList word))
      else do
        let b ← beat line word
        return .beat b

/-- Read a lyric line. -/
def lyricLine (line : Option Int) (text : List Char) : Except Error (List LyricItem) :=
  (lineWords text).mapM (lyricWord line)

-- ======================================================== pitch line

/-- The key signature that a word writes. -/
def keySignature? : List Char → Option KeySignature
  | ['K', '0'] => some ⟨"", 0⟩
  | ['K', sign, count] =>
    if (sign = '#' ∨ sign = '&') ∧ '1' ≤ count ∧ count ≤ '7' then
      some ⟨String.ofList [sign], (count.toNat : Int) - 48⟩
    else none
  | _ => none

/-- Whether a character is an octave shift. -/
def isShift (c : Char) : Bool :=
  c == '^' || c == '/'

/-- The accidental at the head of a text, the longest that fits, and what follows it. -/
def accidental : List Char → Accidental × List Char
  | '#' :: '#' :: rest => (.doubleSharp, rest)
  | '#' :: rest => (.sharp, rest)
  | '&' :: '&' :: rest => (.doubleFlat, rest)
  | '&' :: rest => (.flat, rest)
  | '%' :: rest => (.natural, rest)
  | rest => (.plain, rest)

/-- The pitch at the head of a text, and what follows it. -/
def pitch? (cs : List Char) : Option (Pitch × List Char) :=
  let (mark, rest) := accidental (cs.dropWhile isShift)
  match rest with
  | [] => none
  | c :: rest =>
    if 'a' ≤ c ∧ c ≤ 'g' then
      some (⟨String.ofList [c], mark, String.ofList (cs.takeWhile isShift)⟩, rest)
    else none

/-- What follows an accidental is no longer than the text. -/
theorem accidental_length (cs : List Char) : (accidental cs).2.length ≤ cs.length := by
  unfold accidental
  split <;> simp <;> omega

/-- What follows a pitch is shorter than the text. -/
theorem pitch?_length {cs rest : List Char} {p : Pitch} (h : pitch? cs = some (p, rest)) :
    rest.length < cs.length := by
  have hdrop := (List.dropWhile_sublist isShift (l := cs)).length_le
  have hacc := accidental_length (cs.dropWhile isShift)
  simp only [pitch?] at h
  split at h
  · contradiction
  · next c tail hrest =>
    rw [hrest, List.length_cons] at hacc
    split at h
    · obtain ⟨-, rfl⟩ := Prod.mk.inj (Option.some.inj h)
      omega
    · contradiction

/-- The pitches of a word, or the rest of the word from where no pitch can be read. -/
def pitches (cs : List Char) : Except (List Char) (List Pitch) :=
  match cs with
  | [] => .ok []
  | c :: tail =>
    match _h : pitch? (c :: tail) with
    | none => .error (c :: tail)
    | some (p, rest) =>
      match pitches rest with
      | .error left => .error left
      | .ok more => .ok (p :: more)
termination_by cs.length
decreasing_by exact pitch?_length _h

/-- Read one word of a pitch line. -/
def pitchWord (line : Option Int) (word : List Char) : Except Error (List PitchItem) :=
  if word = ['|'] then .ok [.barline]
  else
    match keySignature? word with
    | some key => .ok [.key key]
    | none =>
      if word.head? = some 'K' then .error (.line .malformedKey line (String.ofList word))
      else
        match pitches word with
        | .error left => .error (.line .unknownPitch line (String.ofList left))
        | .ok ps => .ok (ps.map .pitch)

/-- Read the items of a pitch line. -/
def pitchItems (line : Option Int) (ws : List (List Char)) : Except Error (List PitchItem) := do
  let items ← ws.mapM (pitchWord line)
  return items.flatten

/-- Read a pitch line. A key signature as its first word is the line's own. -/
def pitchLine (line : Option Int) (text : List Char) : Except Error PitchLine :=
  match lineWords text with
  | [] => .ok ⟨none, []⟩
  | first :: rest =>
    match keySignature? first with
    | some key => do
      let items ← pitchItems line rest
      return ⟨some (.key key), items⟩
    | none => do
      let items ← pitchItems line (first :: rest)
      return ⟨none, items⟩

-- ============================================================ blocks

/-- A line of the source with its number, counted from one. -/
abbrev NumberedLine := Nat × List Char

/-- The chunks of a text: runs of lines that are not blank, without the blanks around them. -/
def chunks (text : List Char) : List (List NumberedLine) :=
  partsBetween (fun l => l.2.isEmpty)
    (((lines text).zipIdx 1).map fun l => (l.2, trim l.1))

/-- The word that opens a counter line, in any case. -/
def counterWord : List Char := "counter:".toList

/-- The digits of a counter line. -/
def counterDigits? (text : List Char) : Option (List Char) :=
  let digits := (text.drop counterWord.length).dropWhile isBlank
  if (text.take counterWord.length).map Char.toLower = counterWord ∧ digits ≠ []
      ∧ digits.all isDigit then
    some digits
  else none

/-- Read a counter line. -/
def counter (line : Option Int) (text : List Char) : Except Error Nat :=
  match counterDigits? text with
  | none => .error (.line .missingCounter line (String.ofList text))
  | some digits => natural digits

/-- Read a block from its lyric line, its pitch line and the lines behind them. -/
def blockOf (lyric pitch : NumberedLine) (counterLine : Option NumberedLine) :
    Except Error Block := do
  let lyrics ← lyricLine (some lyric.1) lyric.2
  let pitches ← pitchLine (some pitch.1) pitch.2
  match counterLine with
  | none => return ⟨lyrics, pitches, none⟩
  | some c =>
    let n ← counter (some c.1) c.2
    return ⟨lyrics, pitches, some n⟩

/-- Read a block from a chunk. -/
def block : List NumberedLine → Except Error Block
  | [] => .ok ⟨[], ⟨none, []⟩, none⟩
  | [lyric] => .error (.line .missingPitchLine (some lyric.1) (String.ofList lyric.2))
  | [lyric, pitch] => blockOf lyric pitch none
  | [lyric, pitch, c] => blockOf lyric pitch (some c)
  | _ :: _ :: _ :: extra :: _ => .error (.line .extraLine (some extra.1) (String.ofList extra.2))

/-- Read a score from its chunks. -/
def scoreOf : List (List NumberedLine) → Except Error Score
  | [title] :: rest => do
    let blocks ← rest.mapM block
    return ⟨blocks, String.ofList title.2⟩
  | chunks => do
    let blocks ← chunks.mapM block
    return ⟨blocks, ""⟩

end Reader

/-- Read a score. -/
def Score.parse (text : String) : Except Error Score :=
  Reader.scoreOf (Reader.chunks text.toList)

end LyricScore
