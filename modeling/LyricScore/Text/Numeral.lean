/-
Numbers in text. Integers and fractions are read with blanks around them, an optional sign and
single underscores between digits; digits may be of any script. A numeral has at most
`maxDigits` digits, read or written, so writers ask `fits` before they write a number that
sums may have made longer.
-/
import LyricScore.Error
import LyricScore.Text.Blank
import LyricScore.Text.Digit

namespace LyricScore.Text

-- ============================================================ limits

/-- The most digits a numeral may have. -/
def maxDigits : Nat := 4300

/-- Whether an integer is short enough to be written. -/
def fits (n : Int) : Bool :=
  n.natAbs < Nat.pow 10 maxDigits

/-- Whether a fraction has a numerator and a denominator short enough to be written. -/
def ratFits (q : Rat) : Bool :=
  fits q.num && fits q.den

/-- The number that a run of digits writes, if the run is not too long. -/
def natural (cs : List Char) : Except Error Nat :=
  if maxDigits < cs.length then .error (.numeralTooLong cs.length) else .ok (digitsValue cs)

-- ========================================================== integers

/-- Whether a character can stand inside a numeral: a digit or the mark between digits. -/
def isNumeralChar (c : Char) : Bool :=
  isDigit c || c == '_'

/-- The digits of a numeral: groups of digits with one mark between each two. -/
def groupedDigits? (cs : List Char) : Option (List Char) :=
  let groups := splitWhere (· == '_') cs
  if groups.all fun g => !g.isEmpty && g.all isDigit then some groups.flatten else none

/-- A text after its sign, and whether the sign was a minus. -/
def splitSign : List Char → Bool × List Char
  | '-' :: rest => (true, rest)
  | '+' :: rest => (false, rest)
  | cs => (false, cs)

/-- A number with a sign. -/
def withSign (negative : Bool) (n : Nat) : Int :=
  if negative then -(n : Int) else n

/-- The blanks that may surround an integer. The four separator controls do not. -/
def isMargin (c : Char) : Bool :=
  isBlank c && !(28 ≤ c.toNat && c.toNat ≤ 31)

/-- Read an integer. The length of the numeral is judged before what stands behind it. -/
def readInteger (s : String) : Except Error Int :=
  let (negative, cs) := splitSign (trimWhere isMargin s.toList)
  match groupedDigits? (cs.takeWhile isNumeralChar) with
  | none => .error (.notAnInteger s)
  | some digits =>
    match natural digits with
    | .error e => .error e
    | .ok n =>
      if (cs.dropWhile isNumeralChar).isEmpty then .ok (withSign negative n)
      else .error (.notAnInteger s)

-- ========================================================= fractions

/-- A fraction as written: whole part, then a denominator, or decimals and an exponent. The
decimals are digits, or a run of the letter d, which no number has. -/
structure FractionParts where
  whole : List Char
  denominator : Option (List Char)
  decimals : List Char
  exponent : Option (Bool × List Char)

/-- Digits that may be missing altogether. -/
def optionalDigits? (cs : List Char) : Option (List Char) :=
  if cs.isEmpty then some [] else groupedDigits? cs

/-- The exponent that a text consists of; an empty text has none. -/
def exponent? : List Char → Option (Option (Bool × List Char))
  | [] => some none
  | c :: rest =>
    if c = 'e' ∨ c = 'E' then
      let (negative, digits) := splitSign rest
      (groupedDigits? digits).map fun ds => some (negative, ds)
    else none

/-- Whether a character is the letter d. -/
def isLetterD (c : Char) : Bool :=
  c == 'd' || c == 'D'

/-- What follows the whole part. -/
def fractionTail? (whole : List Char) : List Char → Option FractionParts
  | '/' :: rest => (groupedDigits? rest).map fun ds => ⟨whole, some ds, [], none⟩
  | '.' :: rest =>
    if (rest.takeWhile isLetterD).isEmpty then do
      let decimals ← optionalDigits? (rest.takeWhile isNumeralChar)
      let exponent ← exponent? (rest.dropWhile isNumeralChar)
      return ⟨whole, none, decimals, exponent⟩
    else do
      let exponent ← exponent? (rest.dropWhile isLetterD)
      return ⟨whole, none, rest.takeWhile isLetterD, exponent⟩
  | rest => do
    let exponent ← exponent? rest
    return ⟨whole, none, [], exponent⟩

/-- Whether a fraction can start here: with a digit, or with a point and a digit. -/
def startsFraction : List Char → Bool
  | '.' :: c :: _ => isDigit c
  | c :: _ => isDigit c
  | [] => false

/-- The parts of an unsigned fraction. -/
def fractionParts? (cs : List Char) : Option FractionParts :=
  if startsFraction cs then do
    let whole ← optionalDigits? (cs.takeWhile isNumeralChar)
    fractionTail? whole (cs.dropWhile isNumeralChar)
  else none

/-- The numerator and the denominator that the parts write. -/
def FractionParts.value (p : FractionParts) : Except Error (Nat × Nat) := do
  let whole ← natural p.whole
  match p.denominator with
  | some ds =>
    let denominator ← natural ds
    return (whole, denominator)
  | none =>
    if !p.decimals.all isDigit then throw (.notAnInteger (String.ofList p.decimals))
    let decimals ← natural p.decimals
    let scale := Nat.pow 10 p.decimals.length
    let numerator := whole * scale + decimals
    match p.exponent with
    | none => return (numerator, scale)
    | some (negative, ds) =>
      let power ← natural ds
      if negative then return (numerator, scale * Nat.pow 10 power)
      else return (numerator * Nat.pow 10 power, scale)

/-- Read a fraction: an integer, two integers with a stroke between, or a decimal. Letters in the
place of decimals are refused as an integer, once the whole part is read. -/
def readFraction (s : String) : Except Error Rat :=
  let (negative, cs) := splitSign (trim s.toList)
  match fractionParts? cs with
  | none => .error (.notAFraction s)
  | some parts =>
    match parts.value with
    | .error e => .error e
    | .ok (_, 0) => .error .zeroDenominator
    | .ok (n, d) => .ok (mkRat (withSign negative n) d)

-- =========================================================== writing

/-- An integer in decimal. -/
def decimal (n : Int) : String :=
  toString n

/-- A fraction in lowest terms; whole numbers are written without a denominator. -/
def ratText (q : Rat) : String :=
  if q.den = 1 then decimal q.num else decimal q.num ++ "/" ++ decimal q.den

end LyricScore.Text
