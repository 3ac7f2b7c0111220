/-
Music lines. The pieces of a line are joined with spaces and then tidied: single spaces, none
before a barline and one behind it, and every tie against the note that it extends, ahead of
barlines and inline fields. A tie that opens a line belongs to the last note of the line before.
-/
import LyricScore.Text.Blank
import LyricScore.Text.Digit
import LyricScore.Text.Quoted

namespace LyricScore

open Text

namespace Line

-- ========================================================== barlines

/-- A line without the spaces before its barlines. -/
def closeBars : List Char → List Char
  | [] => []
  | c :: rest =>
    if c = ' ' ∧ rest.head? = some '|' then closeBars rest else c :: closeBars rest

/-- A line with a space behind each barline that neither ends it nor stands before another. -/
def openBars : List Char → List Char
  | [] => []
  | c :: rest =>
    if c = '|' ∧ rest ≠ [] ∧ rest.head? ≠ some '|' then '|' :: ' ' :: openBars rest
    else c :: openBars rest

-- ============================================================== ties

/-- Whether a character can end a note: a letter, an octave mark or a part of a length. -/
def endsNote (c : Char) : Bool :=
  ('A' ≤ c && c ≤ 'G') || ('a' ≤ c && c ≤ 'g') || c == ',' || c == apostrophe || c == '/'
    || isDigit c

/-- The length of the inline field at the head of a text. -/
def fieldLength? : List Char → Option Nat
  | '[' :: name :: ':' :: rest =>
    if (name = 'K' ∨ name = 'L' ∨ name = 'M') ∧ rest.contains ']' then
      some ((rest.takeWhile (· != ']')).length + 4)
    else none
  | _ => none

/-- The length of the bars, spaces and inline fields at the head of a text. -/
def gapLength (cs : List Char) : Nat :=
  match cs with
  | [] => 0
  | c :: rest =>
    if c = ' ' ∨ c = '|' then gapLength rest + 1
    else
      match fieldLength? (c :: rest) with
      | some (n + 1) => gapLength (rest.drop n) + (n + 1)
      | _ => 0
termination_by cs.length
decreasing_by all_goals (simp only [List.length_cons, List.length_drop]; omega)

/-- A line with its ties moved ahead of the gaps in front of them. `previous` is the character
before the line at hand. -/
def attachTies (previous : Option Char) (cs : List Char) : List Char :=
  match cs with
  | [] => []
  | c :: rest =>
    let gap := gapLength (c :: rest)
    if previous.any endsNote ∧ gap ≠ 0 ∧ ((c :: rest).drop gap).head? = some '-' then
      '-' :: (c :: rest).take gap ++ attachTies (some '-') (rest.drop gap)
    else c :: attachTies (some c) rest
termination_by cs.length
decreasing_by all_goals (simp only [List.length_cons, List.length_drop]; omega)

/-- A tidy line. -/
def tidy (cs : List Char) : List Char :=
  squeeze (attachTies none (openBars (closeBars (squeeze cs))))

-- ====================================================== opening ties

/-- The length of the inline fields that open a line, each with a space behind it. -/
def openingLength (cs : List Char) : Nat :=
  match fieldLength? cs with
  | some (n + 1) =>
    if (cs.drop (n + 1)).head? = some ' ' then openingLength (cs.drop (n + 2)) + (n + 2) else 0
  | _ => 0
termination_by cs.length
decreasing_by
  have : cs ≠ [] := by
    intro h
    simp [h] at *
  have := List.length_pos_iff.mpr this
  simp only [List.length_drop]
  omega

/-- A line without the tie that opens it, behind any inline fields. -/
def withoutOpeningTie? (cs : List Char) : Option (List Char) :=
  let opening := openingLength cs
  if (cs.drop opening).head? = some '-' then
    some (trim (cs.take opening ++ cs.drop (opening + 1)))
  else none

/-- Whether nothing but a gap is left of a line. A last line feed does not count. -/
def isTail (cs : List Char) : Bool :=
  let rest := cs.drop (gapLength cs)
  rest.isEmpty || rest == ['\n']

/-- A line with a tie on the note that ends it, if one does. -/
def tieLast? (previous : Option Char) : List Char → Option (List Char)
  | [] => if previous.any endsNote then some ['-'] else none
  | c :: rest =>
    if previous.any endsNote && isTail (c :: rest) then some ('-' :: c :: rest)
    else (tieLast? (some c) rest).map (c :: ·)

/-- Lines with their opening ties moved to the line before; `last` is that line. -/
def carryFrom (last : List Char) : List (List Char) → List (List Char)
  | [] => [last]
  | line :: rest =>
    match withoutOpeningTie? line, tieLast? none last with
    | some line, some last => last :: carryFrom line rest
    | _, _ => last :: carryFrom line rest

/-- Lines with every tie that opens one moved onto the last note of the line before it. A line
that follows no note keeps its tie. -/
def carryTies : List (List Char) → List (List Char)
  | [] => []
  | line :: rest => carryFrom line rest

end Line

end LyricScore
