/-
Subdivisions. A beat split into `count` parts is written with the largest power of two that is
not above `count` as denominator; an odd split is bracketed as a tuplet. In the compound unit
the denominator is halved and nothing is bracketed.
-/
import LyricScore.Rhythm.Unit

namespace LyricScore

open Text

/-- The largest power of two that is not above a positive number. -/
def floorPower (n : Nat) : Nat :=
  Nat.pow 2 n.log2

/-- Whether a number is a power of two. -/
def isPowerOfTwo (n : Int) : Bool :=
  0 < n && floorPower n.toNat == n.toNat

/-- The denominator of one part of a beat split into `count` parts. -/
def splitDenominator (count : Nat) (compound : Bool) : Nat :=
  if compound then max 1 (floorPower count / 2) else floorPower count

/-- The denominator for a count that may be any integer; a beat needs some part. -/
def splitDenominatorOf (count : Int) (compound : Bool) : Except Error Nat :=
  if count = 0 then .error .emptyGroup else .ok (splitDenominator count.natAbs compound)

/-- Whether a beat split into `count` parts is bracketed. -/
def needsTuplet (count : Int) (compound : Bool) : Bool :=
  1 < count && count % 2 == 1 && !compound

/-- The opening of a tuplet of `count` notes in the time of `denominator`. -/
def tupletOpening (count denominator : Int) : String :=
  if count = 3 then "(3" else "(" ++ decimal count ++ ":" ++ decimal denominator

/-- The written length of one part, in units, of a beat that lasts `duration`. -/
def splitLength (count : Nat) (duration unit : Rat) : Rat :=
  if unit = compoundUnit then 1 / (splitDenominator count true : Rat)
  else duration / (splitDenominator count false : Rat)

/-- The written length for a count that may be any integer. -/
def splitLengthOf (count : Int) (duration unit : Rat) : Except Error Rat :=
  if count = 0 then .error .emptyGroup else .ok (splitLength count.natAbs duration unit)

/-- The length of a note as tunes write it behind the pitch. -/
def lengthText (length : Rat) : String :=
  if length = 1 then ""
  else if length.num = 1 then "/" ++ decimal length.den
  else if length.den = 1 then decimal length.num
  else decimal length.num ++ "/" ++ decimal length.den

/-- Whether the numbers that `lengthText` writes are short enough. -/
def lengthFits (length : Rat) : Bool :=
  length == 1
    || ((length.num == 1 || fits length.num) && (length.den == 1 || fits length.den))

end LyricScore
