/-
What commands print. Control sequences are for terminals, so printed text goes without them. A
sequence is an escape character and an opening bracket, then parameters, then intermediates, then
one final character. The three kinds are neighbouring ranges of ASCII, so a sequence can be read
in one way only.
-/

namespace LyricScore.Terminal

/-- The escape character. -/
def escape : Char := Char.ofNat 0x1B

/-- Whether a character is a parameter: a digit, or one of the six signs that follow the digits. -/
def isParameter (c : Char) : Bool :=
  '0' ≤ c && c ≤ '?'

/-- Whether a character is an intermediate: a space, or a sign before the digits. -/
def isIntermediate (c : Char) : Bool :=
  ' ' ≤ c && c ≤ '/'

/-- Whether a character can end a sequence: a letter, or a sign among the letters. -/
def isFinal (c : Char) : Bool :=
  '@' ≤ c && c ≤ '~'

/-- What is left behind the sequence that an escape character opens, for texts that go on with
one. -/
def afterSequence? : List Char → Option (List Char)
  | '[' :: rest =>
    match (rest.dropWhile isParameter).dropWhile isIntermediate with
    | c :: behind => if isFinal c then some behind else none
    | [] => none
  | _ => none

/-- A sequence leaves less than there was. -/
theorem afterSequence?_length {cs behind : List Char} (h : afterSequence? cs = some behind) :
    behind.length < cs.length := by
  unfold afterSequence? at h
  split at h
  · next rest =>
    split at h
    · next c tail hd =>
      split at h
      · cases h
        have hp := (List.dropWhile_sublist isParameter (l := rest)).length_le
        have hi := (List.dropWhile_sublist isIntermediate
          (l := rest.dropWhile isParameter)).length_le
        rw [hd] at hi
        simp only [List.length_cons] at hi ⊢
        omega
      · cases h
    · cases h
  · cases h

/-- A text without its control sequences. What comes together around one is not read again. -/
def strip (cs : List Char) : List Char :=
  match cs with
  | [] => []
  | c :: rest =>
    if c = escape then
      match _h : afterSequence? rest with
      | some behind => strip behind
      | none => c :: strip rest
    else c :: strip rest
termination_by cs.length
decreasing_by
  · have := afterSequence?_length _h
    simp only [List.length_cons]
    omega
  · simp only [List.length_cons, Nat.lt_succ_self]
  · simp only [List.length_cons, Nat.lt_succ_self]

/-- A text as it is printed. -/
def plain (s : String) : String :=
  String.ofList (strip s.toList)

end LyricScore.Terminal
