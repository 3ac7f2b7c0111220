/-
Units. A unit mark such as `[4]` or `[4.]` in a lyric line says which note value one beat has;
the unit is that value as a fraction of a whole note. In the compound unit 1/8 every subdivision
counts, in all others the beat does.
-/
import LyricScore.Text.Numeral

namespace LyricScore

open Text

/-- The unit of a score without unit marks, and of a mark that is not known. -/
def defaultUnit : Rat := 1 / 4

/-- The sum of some times. -/
def sumTimes : List Rat → Rat
  | [] => 0
  | time :: rest => time + sumTimes rest

/-- The unit in which every subdivision is a beat. -/
def compoundUnit : Rat := 1 / 8

/-- The unit that a mark declares, from its number and whether it has a dot. -/
def markedUnit? : Nat → Bool → Option Rat
  | 1, false => some 1
  | 2, false => some (1 / 2)
  | 4, false => some (1 / 4)
  | 8, false => some (1 / 8)
  | 1, true => some (1 / 2)
  | 2, true => some (1 / 4)
  | 4, true => some (1 / 8)
  | 8, true => some (1 / 16)
  | _, _ => none

/-- The digits of a unit mark and whether a dot follows them. -/
def unitMark? : List Char → Option (List Char × Bool)
  | '[' :: rest =>
    let digits := rest.takeWhile isDigit
    if digits.isEmpty then none
    else
      match rest.dropWhile isDigit with
      | [']'] => some (digits, false)
      | ['.', ']'] => some (digits, true)
      | _ => none
  | _ => none

/-- The unit that a text declares, if it is a known unit mark. -/
def declaredUnit? (text : String) : Except Error (Option Rat) :=
  match unitMark? (trim text.toList) with
  | none => .ok none
  | some (digits, dotted) =>
    match natural digits with
    | .error e => .error e
    | .ok n => .ok (markedUnit? n dotted)

/-- A unit as tunes write it, always with a denominator. -/
def unitText (unit : Rat) : String :=
  decimal unit.num ++ "/" ++ decimal unit.den

end LyricScore
